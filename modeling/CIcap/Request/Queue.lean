import CIcap.Request.Frame

/-! # What a response consists of

The blocks a response has queued when its status is a given one: the head, the encapsulated
header blocks, the chunks of the body, the last chunk, the trailers (`Queue`). Together with
the pieces written so far (`Pieces.Writes`) this is the invariant of the sending side (`Sent`).
Some facts hold for every service, some only under assumptions about the run; the latter are
collected in `Premises`, so that one invariant serves all statements.
-/

namespace CIcap

open CText Pieces

variable {σ : Type} (cfg : Config σ)

/-- The pieces on the wire that belong to the final response. -/
def Net.final (n : Net) : List Seg := n.wire.filter (fun s => decide (s.src ≠ .interim))

namespace Block

/-- The block as far as it can be sent: body data have to become a chunk first. -/
def out (b : Block) : Block := if b.src = .raw then .none else b

/-- Body data that are not a chunk yet. -/
def raw (b : Block) : List UInt8 := if b.src = .raw then b.bytes else []

theorem out_of_nil {b : Block} (h : b.bytes = []) : (Block.out b).bytes = [] := by
  unfold out
  split_ifs
  · rfl
  · exact h

theorem raw_of_nil {b : Block} (h : b.bytes = []) : Block.raw b = [] := by
  unfold raw
  split_ifs
  · exact h
  · rfl

end Block

/-! ## The part of the request the sending works on -/

/-- The fields of the request that matter for the sending of the response. -/
structure Side (σ : Type) where
  status : SendStatus
  block : Block
  packed : Bool
  responceHasbody : Bool
  responseHeader : Headers
  entities : List Entity
  trailerNames : Option (List UInt8)
  allowTrailers : Bool
  xheaders : Headers
  mod : Option (Service σ)
  type : Option ReqType
  returnCode : Option Ec

def Req.side (req : Req σ) : Side σ :=
  { status := req.status, block := req.block, packed := req.packed
    responceHasbody := req.responceHasbody, responseHeader := req.responseHeader
    entities := req.entities, trailerNames := req.trailerNames
    allowTrailers := req.allowTrailers, xheaders := req.xheaders, mod := req.mod
    type := req.type, returnCode := req.returnCode }

def Side.IsMod (s : Side σ) : Prop := s.type = some .reqmod ∨ s.type = some .respmod

/-- The response is one that can announce trailers. -/
def Side.Successful (s : Side σ) : Prop :=
  s.returnCode = some .ec200 ∨ s.returnCode = some .ec206

theorem Side.IsMod.of_type {s s' : Side σ} (h : s.IsMod) (hty : s'.type = s.type) : s'.IsMod := by
  unfold Side.IsMod at *
  rwa [hty]

theorem Side.Successful.of_code {s s' : Side σ} (h : s.Successful) (hcode : s'.returnCode = s.returnCode) :
    s'.Successful := by
  unfold Side.Successful at *
  rwa [hcode]

/-! ## Assumptions -/

/-- What a statement assumes about a run. -/
structure Premises where
  /-- no service replaces the entities of a response that is under way -/
  keeps : Prop
  /-- a service that is asked after the end of the body gives data or reports the end -/
  productive : Prop
  /-- the data are locked while a body is only read -/
  locked : Prop
  /-- a head that has to announce trailers has room for it -/
  room : Prop
  /-- the other conditions under which trailers and their announcement agree -/
  trailers : Prop

namespace Service

/-- Once the response is under way no handler replaces the entities. -/
structure Keeps (m : Service σ) : Prop where
  endOfData : ∀ handler, m.endOfDataHandler = some handler → ∀ s v, v.sentData = true →
    ∀ a ∈ (handler s v).2.2, a.creates = false
  io : ∀ io, m.serviceIo = some io → ∀ s v x, v.sentData = true →
    ∀ a ∈ (io s v x).2.2, a.creates = false

/-- When there is room and the body of the request has ended, `service_io` gives data or
reports the end. -/
def Productive (m : Service σ) : Prop :=
  ∀ io, m.serviceIo = some io → ∀ s v x, x.iseof = true → 0 < x.room →
    ∀ took, (io s v x).1 ≠ .ok (.data []) took

/-- No handler adds a `Trailer` header on its own. -/
structure Plain (m : Service σ) : Prop where
  options : ∀ s v, ∀ a ∈ (m.optionHandlers s v).2.2, a.plain = true
  init : ∀ handler, m.initRequestData = some handler → ∀ s v, ∀ a ∈ (handler s v).2,
    a.plain = true
  preview : ∀ handler, m.checkPreviewHandler = some handler → ∀ s v d,
    ∀ a ∈ (handler s v d).2.2, a.plain = true
  endOfData : ∀ handler, m.endOfDataHandler = some handler → ∀ s v,
    ∀ a ∈ (handler s v).2.2, a.plain = true
  io : ∀ io, m.serviceIo = some io → ∀ s v x, ∀ a ∈ (io s v x).2.2, a.plain = true

end Service

/-- The service meets the premises. -/
structure ServiceOk (P : Premises) (m : Service σ) : Prop where
  keeps : P.keeps → m.Keeps
  productive : P.productive → m.Productive
  plain : P.trailers → m.Plain

/-! ## The queue -/

/-- A queued block. -/
abbrev QBlock : Type := BlockSrc × List UInt8

def Side.head (s : Side σ) : QBlock := (.head s.responseHeader, s.responseHeader.buf)

def chunkBlock (d : List UInt8) : QBlock := (.chunk, chunkBytes d)

/-- The forms of the last chunk. -/
def IsLastChunk (b : List UInt8) : Prop :=
  b = bytes "0" ++ crlf ++ crlf ∨
    ∃ n, b = bytes "0; use-original-body=" ++ natText 10 n ++ crlf ++ crlf

/-- The blocks are encapsulated header blocks; where the entities stay the same, those of the
first `i` entities. -/
structure EntityBlocks (P : Premises) (s : Side σ) (i : Nat) (es : List QBlock) : Prop where
  src : ∀ q ∈ es, ∃ k, q.1 = .entity k
  eq : P.keeps → i ≤ s.entities.length ∧
    es.map Prod.snd = (s.entities.take i).map (fun e => e.headers.buf) ∧
    ∀ e ∈ s.entities.take i, e.isHdr = true

/-- The blocks are the encapsulated header blocks, all of them. -/
structure AllEntityBlocks (P : Premises) (s : Side σ) (es : List QBlock) : Prop where
  src : ∀ q ∈ es, ∃ k, q.1 = .entity k
  eq : P.keeps → es.map Prod.snd =
    (s.entities.takeWhile Entity.isHdr).map (fun e => e.headers.buf)

/-- The head has been built by `mk_responce_header`. -/
structure Built (s : Side σ) : Prop where
  packed : s.packed = true
  lines : s.responseHeader.lines ≠ []

/-- How many header blocks have been queued in a status before the body. -/
def headNumber : SendStatus → Option Nat
  | .respHead => some 0
  | .head1 => some 1
  | .head2 => some 2
  | .head3 => some 3
  | _ => none

/-- The blocks queued for a response in a status, the data of the chunks among them being
`cs`. -/
inductive Queue (P : Premises) (s : Side σ) : SendStatus → List (List UInt8) → List QBlock → Prop
  | nothing : s.responceHasbody = false → Queue P s .nothing [] []
  | heads {status : SendStatus} {i : Nat} {es : List QBlock} : Built s →
      headNumber status = some i → EntityBlocks P s i es → Queue P s status [] (s.head :: es)
  | body {cs : List (List UInt8)} {es : List QBlock} : Built s → s.responceHasbody = true →
      AllEntityBlocks P s es → (∀ d ∈ cs, d ≠ []) →
      Queue P s .body cs (s.head :: (es ++ cs.map chunkBlock))
  /-- the body is closed by the last chunk -/
  | closed {cs : List (List UInt8)} {es : List QBlock} {last : List UInt8} : Built s →
      s.responceHasbody = true → AllEntityBlocks P s es → (∀ d ∈ cs, d ≠ []) →
      IsLastChunk last → Queue P s .eof cs (s.head :: (es ++ cs.map chunkBlock ++ [(.last, last)]))
  | bodiless {es : List QBlock} : Built s → s.responceHasbody = false → AllEntityBlocks P s es →
      Queue P s .eof [] (s.head :: es)
  /-- a response without encapsulated parts, written at once -/
  | simple {out : List UInt8} : s.responceHasbody = false → s.packed = false →
      Queue P s .eof [] [(.head s.responseHeader, out)]
  | trailers {cs : List (List UInt8)} {q : List QBlock} {tb : List UInt8} : Built s →
      Queue P s .eof cs q → s.trailerNames.isSome = true →
      (P.room → s.responceHasbody = true → s.Successful → s.responseHeader.announces = true) →
      (P.trailers → s.responceHasbody = true ∧ tb ≠ [] ∧
        (P.locked → P.room → s.responseHeader.announces = true)) →
      Queue P s .trailers cs (q ++ [(.trailers, tb)])

end CIcap
