import CIcap.Request.Frame

/-! # The beginning of a request

The request object with which the processing of a request begins, what is in it, and the head with
which the runs begin that show how a statement fails or applies.
-/

namespace CIcap

open CText List

variable {σ : Type} (cfg : Config σ)

/-! ## The beginning of a request -/

/-- The request object with which the processing of a request begins: a new one, or the one of
the request before on the same connection. -/
def Begins (req : Req σ) : Prop := req = .alloc ∨ ∃ old, req = keepaliveRequest cfg old

def Run.begin (req : Req σ) (net : Net) (svc : σ) : Run σ := { req := req, net := net, svc := svc }

/-- Nothing but memory is left in a request object that begins. -/
structure Req.Idle (req : Req σ) : Prop where
  rd : req.rd = { pstrblockRead := req.rd.pstrblockRead }
  status : req.status = .nothing
  block : req.block = .none
  packed : req.packed = false
  body : req.responceHasbody = false
  names : req.trailerNames = none
  echo : req.echoBody = none
  type : req.type = none
  mod : req.mod = none
  xheaders : req.xheaders.lines = []
  keepalive : req.keepalive = true

variable {req : Req σ} {m : Service σ}

theorem Begins.idle {cfg : Config σ} (h : Begins cfg req) : req.Idle := by
  rcases h with rfl | ⟨old, rfl⟩
  · constructor <;> rfl
  · unfold keepaliveRequest
    split_ifs <;> constructor <;> rfl

/-- The header list of a new entity. -/
def Req.unusedHeaders (req : Req σ) (type : EntityType) : Headers :=
  ((req.trash.find? (·.type = type)).map (·.headers.reset)).getD {}

theorem Req.allocEntity_eq (req : Req σ) (type : EntityType) (start : Int) :
    req.allocEntity type start = (⟨type, start, req.unusedHeaders type⟩,
      { req with trash := req.trash.filter (·.type ≠ type) }) := by
  unfold Req.allocEntity Req.unusedHeaders
  cases hf : req.trash.find? (·.type = type) with
  | some e => rfl
  | none =>
    have hnone : req.trash.filter (·.type ≠ type) = req.trash := by
      simpa using hf
    rw [hnone]
    rfl

/-! ## A sample -/

/-- A step in which `r` bytes can be read and `w` bytes can be written. -/
def tick (r w : Nat) : Tick := { read := some r, write := some w }

def Config.only (m : Service σ) : Config σ := { findService := fun _ => some m }

theorem Config.only_offers {m' : Service σ} (h : (Config.only m).Offers m') : m' = m := by
  unfold Config.Offers at h
  simpa [Config.only, eq_comm] using h

/-- The lines of a REQMOD request with a body, whose client allows trailers. -/
def sampleLines : List (List UInt8) :=
  [bytes "REQMOD icap://h/s ICAP/1.0", bytes "Allow: trailers", bytes "Encapsulated: req-body=0"]

def sampleHead : List UInt8 := sampleLines.flatMap (· ++ crlf) ++ crlf

def sampleTicks : List Tick := [tick 0 0, tick sampleHead.length 0]

/-- How a request has ended. -/
def Pc.result : Pc → Option Ret
  | .finished ret => some ret
  | _ => none

theorem Pc.eq_finished {pc : Pc} {ret : Ret} (h : pc.result = some ret) : pc = .finished ret := by
  cases pc <;> cases h
  rfl

end CIcap
