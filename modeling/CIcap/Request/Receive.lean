import CIcap.Request.Head
import CIcap.Request.Message

/-! # The receiving side of a request

`Intake` collects what matters for the receiving: the reader, the bytes on the connection, the
data of the preview and those the service has taken. `ReceiveInv` says for every point of the code
where in the message the server stands; nothing the server sends and no call of the service
changes it. This file follows the head, the encapsulated headers and the preview.
-/

namespace CIcap

open CText Chunked List

variable {σ : Type} (cfg : Config σ)

/-! ## The part of the state the receiving works on -/

/-- The reader (but for the mark of a partial response, which the service may set), the data of
the preview, the bytes on the connection, the data the service has taken, and whether it has asked
for the whole body. -/
structure Intake where
  rd : Reader
  preview : List UInt8
  input : List UInt8
  withheld : List UInt8
  accepted : List UInt8
  whole : Bool

def Run.intake (c : Run σ) : Intake :=
  { rd := { c.req.rd with i206UseOriginalBody := 0 }, preview := c.req.previewData.data
    input := c.net.input, withheld := c.net.withheld
    accepted := c.hist.accepted, whole := c.hist.wholeBody }

namespace Intake

variable {b : RequestBody} {next : List UInt8} {x : Intake}

/-- Nothing of the body has been read. -/
structure Fresh (b : RequestBody) (next : List UInt8) (x : Intake) : Prop where
  chunk : x.rd.currentChunkLen = x.rd.chunkBytesRead
  pending : x.rd.writeToModulePending = 0
  eof : x.rd.eofReceived = false
  preview : x.preview = []
  accepted : x.accepted = []
  whole : x.whole = false
  withheld : x.withheld = b.later next

/-- The reader stands at `p` in a preview. -/
structure InPreview (cs : List Chunk) (more : Option (List Chunk)) (next : List UInt8) (x : Intake)
    (p : Pos) : Prop where
  at_pos : x.rd.At p
  inside : p ≠ .finished
  stream : x.rd.pstrblockRead ++ x.input =
    p.bytes (RequestBody.previewEnd more).enc ++ RequestBody.behindPreview next more
  chunks : ∀ k ∈ p.chunks, ChunkFits k
  pending : x.rd.writeToModulePending = 0
  eof : x.rd.eofReceived = false
  data : x.preview ++ p.left = body cs
  accepted : x.accepted = []
  whole : x.whole = false
  withheld : x.withheld = (RequestBody.preview cs more).later next

/-- No byte of the message is left, and no byte behind it has been taken: what has been read or
will be is `next`; or the client still withholds the rest behind the preview. -/
def Settled (b : RequestBody) (next : List UInt8) (x : Intake) : Prop :=
  (x.rd.pstrblockRead ++ x.input = next ∧ x.withheld = []) ∨
    (x.rd.pstrblockRead ++ x.input = [] ∧ x.withheld = b.later next ∧ x.withheld ≠ [])

/-- The preview, or nothing where there is no body, has been read; `eof` tells whether it is all
of the body. With `P` no byte behind the message was taken. -/
structure Previewed (P : Prop) (b : RequestBody) (next : List UInt8) (x : Intake) (eof : Bool) :
    Prop where
  chunk : x.rd.currentChunkLen = x.rd.chunkBytesRead
  pending : x.rd.writeToModulePending = 0
  accepted : x.accepted = []
  whole : x.whole = false
  all : eof = true → x.preview = b.data ∧ (P → x.Settled b next)
  part : eof = false → ∃ cs more, b = .preview cs (some more) ∧ x.preview = body cs ∧
    x.rd.pstrblockRead ++ x.input = [] ∧ x.withheld = b.later next ∧ x.rd.eofReceived = false

/-- The reader stands at `p` in the chunks outside a preview, and the data `wdata` have not been
taken by the service; `drain` tells that the body is only read. -/
structure In (b : RequestBody) (next : List UInt8) (x : Intake) (drain : Bool) (wdata : List UInt8)
    (p : Pos) : Prop where
  at_pos : x.rd.At p
  stream : x.rd.pstrblockRead ++ (x.input ++ x.withheld) = p.bytes LastChunk.plain.enc ++ next
  held : x.withheld = [] ∨ ∃ w, w ≠ [] ∧ x.withheld = w ++ next
  chunks : ∀ k ∈ p.chunks, ChunkFits k
  pending : x.rd.writeToModulePending = wdata.length
  data : x.preview ++ x.accepted ++ wdata ++ p.left = b.data
  eof : x.rd.eofReceived = true ↔ p = .finished
  whole : drain = true → x.whole = false

/-- The receiving is over. With `P` no byte behind the message was taken; a service that has asked
for the whole body has been given it, but for the data `lost` that are still pending. -/
structure Done (P : Prop) (b : RequestBody) (next : List UInt8) (x : Intake) : Prop where
  bytes : P → x.Settled b next
  data : x.whole = true →
    ∃ lost, x.preview ++ x.accepted ++ lost = b.data ∧ x.rd.writeToModulePending = lost.length

/-- The service has been told about the end of the body. With `Q` nothing was pending then. -/
structure Over (P Q : Prop) (b : RequestBody) (next : List UInt8) (x : Intake) : Prop extends
    Done P b next x where
  nothing : Q → x.whole = true → x.rd.writeToModulePending = 0

end Intake

/-! ## The invariant -/

/-- What is known about the receiving at a point of the code, for a message `m` that began with
the request object `req₀`. -/
def Received (P Q : Prop) (req₀ : Req σ) (m : Message) (next : List UInt8) (c : Run σ) : Prop :=
  match c.pc with
  | .start => (∃ rd, c.req = { req₀ with rd := rd }) ∧ c.intake.Fresh m.body next ∧
      c.req.rd.pstrblockRead ++ c.net.input = m.sent next ∧
      (cfg.pipelining = true ∨ c.req.rd.pstrblockRead = [])
  | .readHeader buf back => (∃ rd, c.req = { req₀ with rd := rd }) ∧
      c.intake.Fresh m.body next ∧ c.req.rd.pstrblockRead = [] ∧
      buf ++ c.net.input = m.sent next ∧ buf.length < m.head.length ∧
      buf.length - back + 4 ≤ m.head.length
  | .encaps i => m.body.Announced c.req ∧ c.intake.Fresh m.body next ∧
      ∃ bs, c.req.rd.pstrblockRead ++ c.net.input = bs ++ m.body.first next ∧
        headerBytes (c.req.entities.drop i) = some bs.length
  | .readEncaps i _ remains => m.body.Announced c.req ∧ c.intake.Fresh m.body next ∧
      c.req.rd.pstrblockRead = [] ∧ ∃ bs k, c.net.input = bs ++ m.body.first next ∧
        headerBytes (c.req.entities.drop (i + 1)) = some k ∧ bs.length = remains + k
  | .previewRead | .previewParse => m.body.Announced c.req ∧ ∃ cs more p,
      m.body = .preview cs more ∧ c.intake.InPreview cs more next p
  | .preview eof => m.body.Announced c.req ∧ c.intake.Previewed P m.body next eof
  | .fakePreview => m.body.Announced c.req ∧ c.intake.Fresh m.body next ∧ c.net.withheld = [] ∧
      c.req.rd.pstrblockRead ++ c.net.input = m.body.first next ∧
      ∀ cs more, m.body ≠ .preview cs more
  | .gsbTop l | .gsbInner l => ∃ p, c.intake.In m.body next l.parseOnly (l.wchunkdata.getD []) p
  | .endOfData => c.intake.Done P m.body next
  | .sendOptions | .sendRest | .finished .ok => c.intake.Over P Q m.body next
  | .finished .error | .fault => True

/-- What is asked of a state before a step: the parser is not called again behind the last chunk;
with `P` no bytes stand behind a preview when it ends, and a body that has not been read is not
answered with 206; with `Q` no data are pending when the service is told about the end. -/
structure Reads (P Q : Prop) (c : Run σ) : Prop where
  once : ∀ l, c.pc = .gsbInner l → c.req.rd.eofReceived = true →
    c.req.rd.writeToModulePending = 0 → c.req.rd.pstrblockRead = []
  preview : P → c.pc = .previewParse → ∀ w rd, parseChunkData c.req.rd = (.eof, w, rd) →
    rd.pstrblockRead = []
  body : P → c.pc = .fakePreview → c.req.hasbody = true → (c.callPreview none).1 = .allow206 →
    ¬ (c.req.allow204 = true ∧ c.req.allow206 = true)
  taken : Q → c.pc = .endOfData → c.req.rd.writeToModulePending = 0

/-! ## The preview buffer while the head is parsed -/

section Head

/-- No line of the head puts data into the preview buffer. -/
theorem parseHeaderLines_previewData {req : Req σ} (lines : List (List UInt8))
    (h : req.previewData.data = []) : (parseHeaderLines req lines).2.previewData.data = [] := by
  induction lines generalizing req with
  | nil => exact h
  | cons line lines ih =>
    have hline : (parseHeaderLine req line).2.previewData.data = [] := by
      unfold parseHeaderLine
      split
      · split
        · exact h
        · split
          · show (Buf.resetAndResize _ _).data = []
            unfold Buf.resetAndResize
            split <;> rfl
          · exact h
      · split
        · rw [processEncapsulated, encapsLoop_entitiesOnly]
          exact h
        · split
          all_goals split <;> exact h
    unfold parseHeaderLines
    split
    · rename_i req' heq
      rw [heq] at hline
      exact ih hline
    · exact hline

theorem parseHead_previewData (req : Req σ) (head : List UInt8) (h : req.previewData.data = []) :
    (parseHead cfg req head).2.previewData.data = [] := by
  unfold parseHead
  split
  · exact h
  rename_i hs _
  dsimp only
  split
  · exact h
  rename_i first lines _
  obtain ⟨_, _, hname⟩ := parseRequest_nameOnly cfg { req with requestHeader := hs } first
  have h1 := congrArg Req.previewData hname
  split
  · rename_i req' heq
    rw [heq] at h1
    have h2 := parseHeaderLines_previewData lines ((congrArg Buf.data h1).trans h)
    split
    · rename_i heq'
      rw [heq'] at h2
      exact h2
    · exact h2
  · exact (congrArg Buf.data h1).trans h

end Head

section Frame

variable {c : Run σ}

theorem intake_of_api {r : Req σ} (h : Req.ApiOnly c.req r) (svc : σ) :
    ({ c with req := r, svc := svc } : Run σ).intake = c.intake := by
  rw [h]
  rfl

theorem RequestBody.Announced.api {b : RequestBody} {r r' : Req σ} (h : b.Announced r)
    (hapi : Req.ApiOnly r r') : b.Announced r' := by
  refine h.congr ?_ ?_ ?_ <;> rw [hapi] <;> rfl

end Frame

/-! ## The head -/

section Begin

variable {P Q : Prop} {req₀ : Req σ} {m : Message} {next : List UInt8} {c : Run σ}

theorem received_reject (t : Tick) (ec : Ec) : Received cfg P Q req₀ m next (c.reject cfg t ec) :=
  trivial

theorem afterHead_received (t : Tick) (ec : Ec)
    (h : ec = .ec100 → Received cfg P Q req₀ m next { c with pc := .encaps 0 }) :
    Received cfg P Q req₀ m next (c.afterHead cfg t ec) := by
  unfold Run.afterHead
  split
  · exact received_reject cfg t ec
  rename_i hec
  split
  · trivial
  · split
    · exact received_reject cfg t _
    · split
      · exact received_reject cfg t _
      · exact h (not_not.mp hec)

section

variable (hwf : m.WellFormed cfg req₀)
include hwf

section

variable (hreq : ∃ rd, c.req = { req₀ with rd := rd }) (hfresh : c.intake.Fresh m.body next)
include hreq hfresh

/-- The head is in the buffer: what follows it stays there. -/
theorem headRead_received (t : Tick) {buf : List UInt8}
    (hs : buf ++ c.net.input = m.sent next) (hlen : m.head.length ≤ buf.length) :
    Received cfg P Q req₀ m next (c.headRead cfg t buf m.head.length) := by
  obtain ⟨rd₀, hreq⟩ := hreq
  obtain ⟨rest, rfl⟩ : ∃ rest, buf = m.head ++ rest := by
    have hpre : m.head <+: buf := by
      exact prefix_of_prefix_length_le ⟨_, hs.symm⟩ ⟨_, rfl⟩ hlen
    exact ⟨_, (prefix_iff_eq_append.mp hpre).symm⟩
  rw [Message.sent, append_assoc, append_cancel_left_eq] at hs
  unfold Run.headRead
  rw [take_left, drop_left, hreq]
  dsimp only
  generalize hrd : ({ rd₀ with pstrblockRead := rest, requestBytesIn := m.head.length } : Reader) = rd
  have honly := parseHead_headOnly cfg { req₀ with rd := rd } m.head
  have hprev := parseHead_previewData cfg { req₀ with rd := rd } m.head (by
    have := hfresh.preview
    unfold Run.intake at this
    rwa [hreq] at this)
  rcases hparse : parseHead cfg { req₀ with rd := rd } m.head with ⟨ec, req'⟩
  rw [hparse] at honly hprev
  dsimp only at honly hprev ⊢
  apply afterHead_received
  rintro rfl
  have hr : req'.rd = rd := by
    rw [honly]
    rfl
  have hf := hfresh
  unfold Run.intake at hf
  rw [hreq] at hf
  refine ⟨hwf.announced _ _ hparse, ⟨?_, ?_, ?_, hprev, hf.accepted, hf.whole, hf.withheld⟩,
    m.blocks, ?_, hwf.blocks _ _ hparse⟩
  · show req'.rd.currentChunkLen = req'.rd.chunkBytesRead
    rw [hr, ← hrd]
    exact hf.chunk
  · show req'.rd.writeToModulePending = 0
    rw [hr, ← hrd]
    exact hf.pending
  · show req'.rd.eofReceived = false
    rw [hr, ← hrd]
    exact hf.eof
  · rw [hr, ← hrd]
    exact hs

/-- The end of the head is searched for in what has been read. -/
theorem searchHead_received
    (hblock : c.req.rd.pstrblockRead = []) (t : Tick) {buf : List UInt8} {pos back : Nat}
    (hs : buf ++ c.net.input = m.sent next) (hpos : pos ≤ buf.length) (hhead : pos + 4 ≤ m.head.length) :
    Received cfg P Q req₀ m next (c.searchHead cfg t buf pos back) := by
  have hsplit : buf.take pos ++ buf.drop pos ++ c.net.input = m.head ++ (m.blocks ++ m.body.first next) := by
    rw [take_append_drop]
    exact hs
  have hx : (buf.take pos).length = pos := length_take_of_le hpos
  obtain ⟨hsome, hnone⟩ := hwf.head.window hsplit (by rw [hx]; exact hhead)
  unfold Run.searchHead
  cases hfind : findEoh (buf.drop pos) with
  | some i =>
    have hused := hsome i hfind
    rw [hx] at hused
    dsimp only
    rw [hused]
    refine headRead_received cfg hwf hreq hfresh t hs ?_
    have hle := (findEoh_eq_some_iff.mp hfind).1.le
    rw [length_drop] at hle
    omega
  | none =>
    have hlt := hnone hfind
    rw [length_drop] at hlt
    refine ⟨hreq, hfresh, hblock, hs, by omega, ?_⟩
    split_ifs with h3
    · rcases Nat.le_total buf.length 3 with h | h
      all_goals omega
    · omega

end

theorem startStep_received (hpc : c.pc = .start) (h : Received cfg P Q req₀ m next c) (t : Tick) :
    Received cfg P Q req₀ m next (c.startStep cfg t) := by
  unfold Received at h
  rw [hpc] at h
  obtain ⟨⟨rd, hreq⟩, hfresh, hs, hpipe⟩ := h
  have hfour := hwf.head.four_le
  unfold Run.startStep
  split_ifs with hbuf
  · refine searchHead_received cfg hwf ⟨{ rd with pstrblockRead := [] }, ?_⟩ ?_ rfl t hs
      (Nat.zero_le _) (by omega)
    · rw [hreq]
    · exact { hfresh with }
  · have hnil : c.req.rd.pstrblockRead = [] := by
      by_contra hne
      exact hbuf ⟨hpipe.resolve_right hne, hne⟩
    rw [hnil] at hs
    exact ⟨⟨rd, hreq⟩, hfresh, hnil, hs, by simp only [length_nil]; omega,
      by simp only [length_nil]; omega⟩

theorem readHeaderStep_received {buf : List UInt8} {back : Nat}
    (hpc : c.pc = .readHeader buf back) (h : Received cfg P Q req₀ m next c) (t : Tick) :
    Received cfg P Q req₀ m next (c.readHeaderStep cfg t buf back) := by
  have h₀ := h
  unfold Received at h
  rw [hpc] at h
  obtain ⟨⟨rd, hreq⟩, hfresh, hblock, hs, hlt, hback⟩ := h
  unfold Run.readHeaderStep
  split
  · trivial
  unfold Run.readNonblock
  cases t.read with
  | none => trivial
  | some k =>
    dsimp only [Option.map_some]
    split_ifs with hgot
    · -- nothing has arrived
      rw [take_eq_nil_iff] at hgot
      have hdrop : c.net.input.drop (min k icapHeaderReadsize) = c.net.input := by
        rcases hgot with h0 | hnil
        · rw [h0, drop_zero]
        · rw [hnil, drop_nil]
      rw [hdrop]
      exact h₀
    refine searchHead_received cfg hwf
      ⟨{ rd with bytesIn := rd.bytesIn + (c.net.input.take (min k icapHeaderReadsize)).length },
        ?_⟩ ?_ ?_ t ?_ ?_ (by omega)
    · rw [hreq]
    · exact { hfresh with }
    · exact hblock
    · rw [append_assoc, take_append_drop]
      exact hs
    · rw [length_append]
      omega

end

/-! ## The encapsulated headers -/

/-- The encapsulated headers up to the entity `i` have been read. -/
def AtEntity (m : Message) (next : List UInt8) (c : Run σ) (i : Nat) : Prop :=
  m.body.Announced c.req ∧ c.intake.Fresh m.body next ∧
    ∃ bs, c.req.rd.pstrblockRead ++ c.net.input = bs ++ m.body.first next ∧
      headerBytes (c.req.entities.drop i) = some bs.length

theorem encapsRead_received (t : Tick) {i : Nat} (block : List UInt8) (h : AtEntity m next c (i + 1)) :
    Received cfg P Q req₀ m next (c.encapsRead cfg t i block) := by
  unfold Run.encapsRead
  dsimp only
  split
  · exact received_reject cfg t _
  · obtain ⟨hann, hfresh, bs, hs, hbytes⟩ := h
    refine ⟨hann.congr rfl rfl rfl, { hfresh with }, bs, hs, ?_⟩
    rw [drop_modify_of_lt _ _ _ _ (Nat.lt_succ_self i)]
    exact hbytes

theorem readEncapsStep_received {i remains : Nat} {buf : List UInt8}
    (hpc : c.pc = .readEncaps i buf remains) (h : Received cfg P Q req₀ m next c) (t : Tick) :
    Received cfg P Q req₀ m next (c.readEncapsStep cfg t i buf remains) := by
  unfold Received at h
  rw [hpc] at h
  obtain ⟨hann, hfresh, hblock, bs, k, hs, hk, hlen⟩ := h
  unfold Run.readEncapsStep
  split
  · exact received_reject cfg t _
  unfold Run.readNonblock
  cases t.read with
  | none => exact received_reject cfg t _
  | some j =>
    -- what is read is a part of the header blocks
    have hle : min j remains ≤ bs.length := by omega
    have htake : c.net.input.take (min j remains) = bs.take (min j remains) := by
      rw [hs, take_append_of_le_length hle]
    have hdrop : c.net.input.drop (min j remains) =
        bs.drop (min j remains) ++ m.body.first next := by
      rw [hs, drop_append_of_le_length hle]
    have hgot : (bs.take (min j remains)).length = min j remains := length_take_of_le hle
    dsimp only [Option.map_some]
    rw [htake, hdrop]
    split_ifs with hall
    · refine encapsRead_received cfg t _ ⟨hann.congr rfl rfl rfl, { hfresh with },
        bs.drop (min j remains), ?_, ?_⟩
      · rw [hblock, nil_append]
      · rw [hk, length_drop]
        congr 1
        omega
    · refine ⟨hann.congr rfl rfl rfl, { hfresh with }, hblock, bs.drop (min j remains), k, rfl, hk, ?_⟩
      rw [length_drop]
      omega

/-! ## The method -/

def AtBody (m : Message) (next : List UInt8) (c : Run σ) : Prop :=
  m.body.Announced c.req ∧ c.intake.Fresh m.body next ∧
    c.req.rd.pstrblockRead ++ c.net.input = m.body.first next

theorem AtBody.api {r : Req σ} (h : AtBody m next c) (hapi : Req.ApiOnly c.req r) (svc : σ) :
    AtBody m next { c with req := r, svc := svc } := by
  obtain ⟨hann, hfresh, hs⟩ := h
  refine ⟨hann.api hapi, ?_, ?_⟩
  · rw [intake_of_api hapi]
    exact hfresh
  · rw [hapi]
    exact hs

theorem AtBody.settled (h : AtBody m next c) (habsent : m.body = .absent) :
    c.intake.Settled m.body next := by
  obtain ⟨-, hfresh, hs⟩ := h
  rw [habsent] at hs hfresh
  exact .inl ⟨hs, hfresh.withheld⟩

/-- `read_preview_data` begins with the counters of the chunk parser at zero. -/
theorem enterReadPreview_intake (c : Run σ) : c.enterReadPreview.intake = { c.intake with
    rd := { c.intake.rd with currentChunkLen := 0, chunkBytesRead := 0, writeToModulePending := 0 } } := by
  unfold Run.enterReadPreview
  dsimp only
  split <;> rfl

theorem dispatchMethod_received (h : AtBody m next c) (hwf : m.WellFormed cfg req₀) (t : Tick)
    (srv : Service σ) : Received cfg P Q req₀ m next (c.dispatchMethod cfg t srv) := by
  have hmods : Received cfg P Q req₀ m next (if 0 ≤ c.req.preview then
        if c.req.hasbody then c.enterReadPreview else { c with pc := .preview true }
      else { c with pc := .fakePreview }) := by
    obtain ⟨hann, hfresh, hs⟩ := h
    split_ifs with hprev hbody
    · cases hb : m.body with
      | absent => exact absurd hb (hann.hasbody.mp hbody)
      | whole cs =>
        have := hann.whole cs hb
        omega
      | preview cs more =>
        -- the first line of the preview is next
        rw [hb] at hs
        have hw := hfresh.withheld
        rw [hb] at hw
        have hin : c.enterReadPreview.intake.InPreview cs more next (.line cs) := by
          rw [enterReadPreview_intake]
          refine ⟨rfl, by simp, hs, fun k hk => hwf.fits k ?_, rfl, hfresh.eof, ?_,
            hfresh.accepted, hfresh.whole, hw⟩
          · rw [hb]
            exact mem_append_left _ hk
          · rw [hfresh.preview]
            rfl
        unfold Run.enterReadPreview at hin ⊢
        dsimp only at hin ⊢
        split_ifs at hin ⊢ <;> exact ⟨hann.congr rfl rfl rfl, cs, more, _, hb, hin⟩
    · have habsent : m.body = .absent := by
        by_contra hne
        exact hbody (hann.hasbody.mpr hne)
      have hset := AtBody.settled ⟨hann, hfresh, hs⟩ habsent
      refine ⟨hann, hfresh.chunk, hfresh.pending, hfresh.accepted, hfresh.whole, fun _ => ⟨?_, fun _ => hset⟩,
        fun h => by cases h⟩
      rw [habsent]
      exact hfresh.preview
    · have hno : ∀ cs more, m.body ≠ .preview cs more := fun cs more hb =>
        hprev (hann.preview cs more hb)
      refine ⟨hann, hfresh, ?_, hs, hno⟩
      have hw : c.net.withheld = m.body.later next := hfresh.withheld
      rw [hw]
      cases hb : m.body with
      | preview cs more => exact absurd hb (hno cs more)
      | _ => rfl
  unfold Run.dispatchMethod
  split
  · trivial
  · -- a request for the options has no body
    rename_i htype
    have habsent : m.body = .absent := h.1.options htype
    have hset := h.settled habsent
    have hwhole := h.2.1.whole
    have honly := (apis_effect c.req (srv.optionHandlers c.svc c.req.view).2.2).only
    have hint := intake_of_api honly (srv.optionHandlers c.svc c.req.view).2.1
    rw [← hint] at hset
    exact ⟨⟨fun _ => hset, fun hw => by cases hwhole.symm.trans hw⟩,
      fun _ hw => by cases hwhole.symm.trans hw⟩
  all_goals exact hmods

theorem dispatch_received (h : AtBody m next c) (hwf : m.WellFormed cfg req₀) (t : Tick) :
    Received cfg P Q req₀ m next (c.dispatch cfg t) := by
  unfold Run.dispatch
  split
  · trivial
  · rename_i srv _
    refine dispatchMethod_received cfg ?_ hwf t srv
    unfold Run.initRequest
    split
    · rename_i init _
      exact h.api (apis_effect c.req (init c.svc c.req.view).2).only _
    · exact h

theorem encapsStep_received (hwf : m.WellFormed cfg req₀) {i : Nat} (hpc : c.pc = .encaps i)
    (h : Received cfg P Q req₀ m next c) (t : Tick) :
    Received cfg P Q req₀ m next (c.encapsStep cfg t i) := by
  unfold Received at h
  rw [hpc] at h
  obtain ⟨hann, hfresh, bs, hs, hbytes⟩ := h
  have hbody : (∀ e, c.req.entities[i]? = some e → e.isHdr = false) → AtBody m next c := by
    intro hno
    have hnil : bs = [] := length_eq_zero_iff.mp (headerBytes_of_not_hdr hno hbytes)
    rw [hnil] at hs
    exact ⟨hann, hfresh, hs⟩
  unfold Run.encapsStep
  cases he : c.req.entities[i]? with
  | none =>
    exact dispatch_received cfg (hbody fun e h => by rw [he] at h; cases h) hwf t
  | some e =>
    dsimp only
    split_ifs with hhdr
    · refine dispatch_received cfg (hbody fun e' h => ?_) hwf t
      rw [he] at h
      cases h
      simpa using hhdr
    obtain ⟨e', k, he', hpos, hk, hn⟩ := headerBytes_drop he (by simpa using hhdr) hbytes
    rw [he']
    dsimp only
    rw [if_neg (by omega)]
    generalize hsize : (e'.start - e.start).toNat = n at hn
    split_ifs with hall
    · -- the block is in the buffer
      refine encapsRead_received cfg t _ ⟨hann.congr rfl rfl rfl, { hfresh with }, bs.drop n, ?_, ?_⟩
      · rw [length_take] at hall
        have hdrop := congrArg (drop n) hs
        rwa [drop_append_of_le_length (by omega), drop_append_of_le_length (by omega)] at hdrop
      · rw [hk, length_drop]
        congr 1
        omega
    · rw [length_take] at hall
      have hnil : c.req.rd.pstrblockRead.drop n = [] := drop_eq_nil_of_le (by omega)
      refine ⟨hann.congr rfl rfl rfl, { hfresh with }, hnil, bs.drop c.req.rd.pstrblockRead.length, k, ?_, hk, ?_⟩
      · have hdrop := congrArg (drop c.req.rd.pstrblockRead.length) hs
        rwa [drop_left, drop_append_of_le_length (by omega)] at hdrop
      · rw [length_drop, length_take]
        omega

end Begin

end CIcap
