import CIcap.Chunk.Decode
import CIcap.Header.Lines
import CIcap.Request.Begin

/-! # A request on the connection

What a client sends for a request: the head, the encapsulated header blocks and the body in
chunks. The body is sent at once, or a preview of it is; what follows the preview is withheld
until the server asks for it with `100 Continue`, unless the preview is marked as all of the body.
Bytes `next` of later requests follow. A message is well formed when its head announces it
(`Message.Announced`).
-/

namespace CIcap

open CText Chunked

variable {σ : Type}

/-- The body of a request: none, chunks sent at once, or the chunks of a preview and those that
follow it (`none` where the preview is marked with `ieof`). -/
inductive RequestBody where
  | absent
  | whole (cs : List Chunk)
  | preview (cs : List Chunk) (more : Option (List Chunk))

namespace RequestBody

def data : RequestBody → List UInt8
  | absent => []
  | whole cs => body cs
  | preview cs more => body cs ++ body (more.getD [])

def chunks : RequestBody → List Chunk
  | absent => []
  | whole cs => cs
  | preview cs more => cs ++ more.getD []

/-- The last chunk of a preview. -/
def previewEnd : Option (List Chunk) → LastChunk
  | none => .ieof
  | some _ => .plain

/-- What a client that has sent a preview sends without waiting for an answer. -/
def behindPreview (next : List UInt8) : Option (List Chunk) → List UInt8
  | none => next
  | some _ => []

/-- The bytes of the body, and those of later requests, that the client sends at once. -/
def first (next : List UInt8) : RequestBody → List UInt8
  | absent => next
  | whole cs => enc cs ++ LastChunk.plain.enc ++ next
  | preview cs more => enc cs ++ (previewEnd more).enc ++ behindPreview next more

/-- The bytes the client withholds until it has received `100 Continue`. -/
def later (next : List UInt8) : RequestBody → List UInt8
  | preview _ (some cs) => enc cs ++ LastChunk.plain.enc ++ next
  | _ => []

theorem previewEnd_fits (more : Option (List Chunk)) : (previewEnd more).Fits := by
  cases more <;> trivial

end RequestBody

/-- The bytes of a request, its body by chunks. -/
structure Message where
  head : List UInt8
  blocks : List UInt8
  body : RequestBody

/-- What the client sends at once for the message, and the bytes `next` behind it. -/
def Message.sent (m : Message) (next : List UInt8) : List UInt8 :=
  m.head ++ (m.blocks ++ m.body.first next)

/-- The number of bytes `parse_encaps_headers` reads for the header blocks: each reaches to the
offset of the entity behind it. -/
def headerBytes : List Entity → Option Nat
  | [] => some 0
  | [e] => if e.isHdr then none else some 0
  | e :: e' :: es =>
    if e.isHdr then
      if e'.start - e.start < 0 then none
      else (headerBytes (e' :: es)).map ((e'.start - e.start).toNat + ·)
    else some 0

/-- What the head says about a body. -/
structure RequestBody.Announced (b : RequestBody) (req : Req σ) : Prop where
  hasbody : req.hasbody = true ↔ b ≠ .absent
  preview : ∀ cs more, b = .preview cs more → 0 ≤ req.preview
  whole : ∀ cs, b = .whole cs → req.preview < 0
  options : req.type = some .options → b = .absent

/-- A message that a request object can take: it begins with a head, and if the head is accepted
it says what follows; the parser can take the chunks. -/
structure Message.WellFormed (cfg : Config σ) (m : Message) (req : Req σ) : Prop where
  head : EndsHead m.head
  blocks : ∀ rd req', parseHead cfg { req with rd := rd } m.head = (.ec100, req') →
    headerBytes req'.entities = some m.blocks.length
  announced : ∀ rd req', parseHead cfg { req with rd := rd } m.head = (.ec100, req') →
    m.body.Announced req'
  fits : ∀ k ∈ m.body.chunks, ChunkFits k

theorem RequestBody.Announced.congr {b : RequestBody} {r r' : Req σ} (h : b.Announced r)
    (hb : r'.hasbody = r.hasbody) (hp : r'.preview = r.preview) (ht : r'.type = r.type) :
    b.Announced r' where
  hasbody := by rw [hb]; exact h.hasbody
  preview := by rw [hp]; exact h.preview
  whole := by rw [hp]; exact h.whole
  options := by rw [ht]; exact h.options

/-! ## The head parser does not look at the reader -/

section Reader

variable (cfg : Config σ) (rd : Reader)

def Req.withRd (req : Req σ) (rd : Reader) : Req σ := { req with rd := rd }

section

variable (req : Req σ)
include req

theorem takeArgs_withRd (s : List UInt8) : takeArgs (req.withRd rd) s =
    (takeArgs req s).map fun res => (res.1.withRd rd, res.2) := by
  unfold takeArgs Req.withRd
  split <;> rfl

theorem takeService_withRd (s : List UInt8) :
    takeService (req.withRd rd) s = ((takeService req s).1.withRd rd, (takeService req s).2) := by
  unfold takeService
  split
  · dsimp only
    have hname : ∀ name : List UInt8,
        (if name ≠ [] then { req.withRd rd with service := name } else req.withRd rd) =
          Req.withRd (if name ≠ [] then { req with service := name } else req) rd := by
      intro name
      split <;> rfl
    rw [hname]
    split
    · rename_i rest _
      rw [takeArgs_withRd]
      cases takeArgs _ rest with
      | none | some res => rfl
    · rfl
  · rfl

theorem findModule_withRd : findModule cfg (req.withRd rd) = (findModule cfg req).withRd rd := by
  unfold findModule
  dsimp only
  have hname : (if (req.withRd rd).service = [] then
        { req.withRd rd with service := (cfg.defaultService.getD []).take maxServiceName }
      else req.withRd rd) =
      Req.withRd (if req.service = [] then
        { req with service := (cfg.defaultService.getD []).take maxServiceName } else req) rd := by
    unfold Req.withRd
    split <;> rfl
  rw [hname]
  generalize (if req.service = [] then
    { req with service := (cfg.defaultService.getD []).take maxServiceName } else req) = r
  rw [show (r.withRd rd).service = r.service from rfl]
  split
  · rfl
  · cases cfg.findService r.service with
    | some m => rfl
    | none =>
      cases cfg.findServiceAlias r.service with
      | none | some entry => rfl

theorem parseRequest_withRd (buf : List UInt8) : parseRequest cfg (req.withRd rd) buf =
      ((parseRequest cfg req buf).1, (parseRequest cfg req buf).2.withRd rd) := by
  unfold parseRequest
  cases getMethod buf with
  | none => rfl
  | some method =>
    dsimp only
    split
    · rfl
    rename_i s _
    have hserv : takeService { { req.withRd rd with type := some method.1 } with
        reqServer := (s.takeWhile (fun b => b ≠ 47 && b ≠ 32)).take maxHostnameLen }
        (s.dropWhile (fun b => b ≠ 47 && b ≠ 32)) = _ := takeService_withRd rd { req with
      type := some method.1
      reqServer := (s.takeWhile (fun b => b ≠ 47 && b ≠ 32)).take maxHostnameLen }
      (s.dropWhile (fun b => b ≠ 47 && b ≠ 32))
    rw [hserv]
    cases takeService _ (s.dropWhile (fun b => b ≠ 47 && b ≠ 32)) with
    | mk r rest =>
      cases rest with
      | none => rfl
      | some rest =>
        dsimp only
        split
        · rfl
        · rw [findModule_withRd, show ((findModule cfg r).withRd rd).mod =
            (findModule cfg r).mod from rfl]
          cases (findModule cfg r).mod with
          | none => rfl
          | some m =>
            dsimp only
            split_ifs <;> rfl

end

theorem encapsLoop_withRd (fuel : Nat) (req : Req σ) (num : Nat) (hasbody : Bool) (s : List UInt8) :
    encapsLoop fuel (req.withRd rd) num hasbody s =
      ((encapsLoop fuel req num hasbody s).1, (encapsLoop fuel req num hasbody s).2.withRd rd) := by
  induction fuel generalizing req num hasbody s with
  | zero => rfl
  | succ fuel ih =>
    rw [encapsLoop, encapsLoop]
    split
    · rfl
    cases getEncapsType s with
    | none => rfl
    | some entry =>
      dsimp only
      split
      · rfl
      · simp only [Req.allocEntity_eq]
        exact ih { req with
          entities := req.entities.take num ++ [⟨entry.1, entry.2.1, req.unusedHeaders entry.1⟩] ++
            req.entities.drop (num + 1)
          trash := req.trash.filter (·.type ≠ entry.1) } _ _ _

theorem parseHeaderLine_withRd (req : Req σ) (line : List UInt8) :
    parseHeaderLine (req.withRd rd) line =
      ((parseHeaderLine req line).1, (parseHeaderLine req line).2.withRd rd) := by
  unfold parseHeaderLine
  split
  · split
    · rfl
    · split <;> rfl
  · split
    · exact encapsLoop_withRd rd _ _ _ _ _
    · split
      all_goals split <;> rfl

theorem parseHeaderLines_withRd (req : Req σ) (lines : List (List UInt8)) :
    parseHeaderLines (req.withRd rd) lines =
      ((parseHeaderLines req lines).1, (parseHeaderLines req lines).2.withRd rd) := by
  induction lines generalizing req with
  | nil => rfl
  | cons line lines ih =>
    rw [parseHeaderLines, parseHeaderLines, parseHeaderLine_withRd]
    cases parseHeaderLine req line with
    | mk ec r =>
      cases ec with
      | ec100 => exact ih r
      | _ => rfl

theorem parseHead_withRd (req : Req σ) (head : List UInt8) : parseHead cfg (req.withRd rd) head =
      ((parseHead cfg req head).1, (parseHead cfg req head).2.withRd rd) := by
  unfold parseHead
  rw [show (req.withRd rd).requestHeader = req.requestHeader from rfl]
  cases req.requestHeader.unpack head with
  | none => rfl
  | some h =>
    dsimp only
    cases h.texts with
    | nil => rfl
    | cons first lines =>
      dsimp only
      rw [show ({ req.withRd rd with requestHeader := h } : Req σ) =
        Req.withRd { req with requestHeader := h } rd from rfl, parseRequest_withRd]
      cases parseRequest cfg { req with requestHeader := h } first with
      | mk ec r =>
        cases ec with
        | ec100 =>
          dsimp only
          rw [parseHeaderLines_withRd]
          cases parseHeaderLines r lines with
          | mk ec' r' => cases ec' <;> rfl
        | _ => rfl

/-- A message is well formed if its head, parsed with the request object as it is, announces it. -/
theorem Message.wellFormed_of {req : Req σ} {head blocks : List UInt8} {body : RequestBody}
    (hhead : EndsHead head)
    (hblocks : headerBytes (parseHead cfg req head).2.entities = some blocks.length)
    (hann : body.Announced (parseHead cfg req head).2) (hfits : ∀ k ∈ body.chunks, ChunkFits k) :
    (⟨head, blocks, body⟩ : Message).WellFormed cfg req where
  head := hhead
  blocks := by
    intro rd req' h
    rw [show ({ req with rd := rd } : Req σ) = req.withRd rd from rfl, parseHead_withRd,
      Prod.mk.injEq] at h
    rw [← h.2]
    exact hblocks
  announced := by
    intro rd req' h
    rw [show ({ req with rd := rd } : Req σ) = req.withRd rd from rfl, parseHead_withRd,
      Prod.mk.injEq] at h
    rw [← h.2]
    exact hann.congr rfl rfl rfl
  fits := hfits

end Reader

/-! ## The header blocks -/

/-- The header block of an entity, by the offset of the next one. -/
theorem headerBytes_drop {es : List Entity} {i : Nat} {e : Entity} {n : Nat}
    (he : es[i]? = some e) (hhdr : e.isHdr = true) (h : headerBytes (es.drop i) = some n) :
    ∃ e' k, es[i + 1]? = some e' ∧ 0 ≤ e'.start - e.start ∧
      headerBytes (es.drop (i + 1)) = some k ∧ n = (e'.start - e.start).toNat + k := by
  obtain ⟨hi, rfl⟩ := List.getElem?_eq_some_iff.mp he
  rw [List.drop_eq_getElem_cons hi] at h
  cases hrest : es.drop (i + 1) with
  | nil =>
    rw [hrest, headerBytes, if_pos hhdr] at h
    cases h
  | cons e' rest =>
    rw [hrest, headerBytes] at h
    split_ifs at h with hneg
    obtain ⟨k, hk, rfl⟩ := Option.map_eq_some_iff.mp h
    refine ⟨e', k, ?_, by omega, hk, rfl⟩
    have hhead := congrArg List.head? hrest
    rwa [List.head?_drop] at hhead

/-- Where there is no header block there are no bytes. -/
theorem headerBytes_of_not_hdr {es : List Entity} {i n : Nat}
    (he : ∀ e, es[i]? = some e → e.isHdr = false) (h : headerBytes (es.drop i) = some n) : n = 0 := by
  cases hrest : es.drop i with
  | nil =>
    rw [hrest] at h
    exact (Option.some.inj h).symm
  | cons e rest =>
    have hhead : es[i]? = some e := by
      rw [← List.head?_drop, hrest]
      rfl
    have hno := he e hhead
    cases rest with
    | nil | cons e' rest =>
      rw [hrest, headerBytes, if_neg (by simp [hno])] at h
      exact (Option.some.inj h).symm

end CIcap
