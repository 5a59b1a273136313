import CIcap.Client.Prepare
import CIcap.Lib.Machine

/-! # What the client sends

The invariant of the sending side of the client library. While the headers are sent, what is on
the wire, what is left of the current block and the blocks to come make up the head, the
encapsulated headers and the preview; afterwards chunks of the rest of the source follow
(`client_sends_source`).
-/

namespace CIcap

open CText Chunked Pieces List

/-! ## The headers -/

def ClientStatus.sendsHeaders : ClientStatus → Bool
  | writeIcapHeaders | writeReqHeaders | writeResHeaders | writePreviewInfo | writePreview
  | writeEofInfo => true
  | _ => false

/-- What is sent with the headers behind the block of a status. -/
def headersToDo (p : Client) : ClientStatus → List UInt8
  | .writeIcapHeaders => headerBlock (requestPack p.req).entities .reqHdr ++
      headerBlock (requestPack p.req).entities .resHdr ++ p.previewBytes
  | .writeReqHeaders => headerBlock (requestPack p.req).entities .resHdr ++ p.previewBytes
  | .writeResHeaders => p.previewBytes
  | .writePreviewInfo => p.req.previewData.data ++ crlf ++ Client.previewEnd p.eofSent
  | .writePreview => crlf ++ Client.previewEnd p.eofSent
  | _ => []

/-- What stays as it was prepared while the headers are sent. -/
structure HeaderFrame (p c : Client) : Prop where
  preview : c.req.preview = p.req.preview
  eofSent : c.eofSent = p.eofSent
  source : c.source = p.source
  continued : c.continued = false

/-- The entities and the preview data are those of the prepared request. -/
structure BlockFrame (p c : Client) : Prop extends HeaderFrame p c where
  entities : c.req.entities = (requestPack p.req).entities
  data : c.req.previewData = p.req.previewData

/-- The headers are being sent. -/
structure Sending (p c : Client) : Prop where
  frame : BlockFrame p c
  status : c.status.sendsHeaders = true
  bytes : content c.wire ++ c.req.block.bytes ++ headersToDo p c.status =
    p.headerBytes ++ p.previewBytes
  empty : c.req.block.bytes = [] → headersToDo p c.status = []
  info : c.status = .writePreviewInfo → p.req.previewData.data ≠ []

/-- A block of the headers has been sent, and those behind the given status are to come. -/
structure Between (p c : Client) (status : ClientStatus) : Prop where
  frame : BlockFrame p c
  block : c.req.block.bytes = []
  bytes : content c.wire ++ headersToDo p status = p.headerBytes ++ p.previewBytes

/-- The headers have been sent. -/
structure HeadersDone (p c : Client) : Prop where
  frame : HeaderFrame p c
  block : c.req.block.bytes = []
  bytes : content c.wire = p.headerBytes ++ p.previewBytes

/-- The result of a function that goes on with the headers. -/
def GoesOn (p : Client) : ClientRet × Client → Prop
  | (.needsMore, c) => Sending p c
  | (.ok, c) => HeadersDone p c
  | (.error, _) => True
  | _ => False

theorem previewEnd_eq (hasEof : Bool) :
    Client.previewEnd hasEof = (if hasEof then LastChunk.ieof else LastChunk.plain).enc := by
  cases hasEof <;> decide

theorem headerBlock_none {es : List Entity} {type : EntityType}
    (hget : getHeadersFromEntities es type = none) : headerBlock es type = [] := by
  rw [headerBlock, hget]
  rfl

theorem headerBlock_some {es : List Entity} {type : EntityType} {q : Nat × Headers}
    (hget : getHeadersFromEntities es type = some q) : headerBlock es type = q.2.buf := by
  rw [headerBlock, hget]
  rfl

section Headers

variable {c₀ p c c' : Client}

theorem HeadersDone.congr (h : HeadersDone p c) (hside : c'.sendSide = c.sendSide) :
    HeadersDone p c' := by
  have hwire : c'.wire = c.wire := congrArg SendSide.wire hside
  have hblock : c'.req.block = c.req.block := congrArg SendSide.block hside
  refine ⟨⟨?_, ?_, ?_, ?_⟩, by rw [hblock]; exact h.block, by rw [hwire]; exact h.bytes⟩
  · exact (congrArg SendSide.preview hside).trans h.frame.preview
  · exact (congrArg SendSide.eofSent hside).trans h.frame.eofSent
  · exact (congrArg SendSide.source hside).trans h.frame.source
  · exact (congrArg SendSide.continued hside).trans h.frame.continued

theorem Between.setBlock {status status' : ClientStatus} {out : List UInt8}
    (h : Between p c status) (hs : status'.sendsHeaders = true)
    (htodo : headersToDo p status = out ++ headersToDo p status')
    (hempty : out = [] → headersToDo p status' = [])
    (hinfo : status' = .writePreviewInfo → p.req.previewData.data ≠ []) (src : BlockSrc) :
    Sending p (c.setBlock status' src out) where
  frame := ⟨⟨h.frame.preview, h.frame.eofSent, h.frame.source, h.frame.continued⟩,
    h.frame.entities, h.frame.data⟩
  status := hs
  bytes := by
    rw [← h.bytes, htodo, ← append_assoc]
    rfl
  empty := hempty
  info := hinfo

/-- A status without a block of its own is passed over. -/
theorem Between.skip {status status' : ClientStatus} (h : Between p c status)
    (htodo : headersToDo p status = headersToDo p status') :
    Between p { c with status := status' } status' :=
  ⟨⟨⟨h.frame.preview, h.frame.eofSent, h.frame.source, h.frame.continued⟩, h.frame.entities,
    h.frame.data⟩, h.block, by rw [← htodo]; exact h.bytes⟩

theorem Between.done {status : ClientStatus} (h : Between p c status)
    (htodo : headersToDo p status = []) : HeadersDone p c :=
  ⟨h.frame.toHeaderFrame, h.block, by rw [← h.bytes, htodo, append_nil]⟩

section

variable (hp : Prepared c₀ p)
include hp

theorem resHeadersSent_goesOn (h : Between p c .writeResHeaders) :
    GoesOn p (c.resHeadersSent p.eofSent) := by
  have hlen : 0 ≤ p.req.preview → p.req.preview = p.req.previewData.data.length := by
    intro hnn
    rcases hp.preview with h' | h'
    · omega
    · exact h'.2
  unfold Client.resHeadersSent
  rw [h.frame.preview, h.frame.data]
  by_cases hpos : 0 < p.req.preview ∧ p.req.previewData.data ≠ []
  · -- the preview is not empty: its size comes first
    rw [if_pos hpos]
    have hsize : p.req.preview.toNat = p.req.previewData.data.length := by
      omega
    refine h.setBlock rfl ?_ (by simp [crlf]) (fun _ => hpos.2) _
    show p.previewBytes = _
    unfold Client.previewBytes chunkBytes headersToDo
    rw [if_neg (by omega), if_neg hpos.2, hsize]
    simp only [append_assoc]
  · rw [if_neg hpos]
    by_cases hzero : p.req.preview = 0
    · rw [if_pos hzero]
      have hdata : p.req.previewData.data = [] := by
        exact length_eq_zero_iff.mp (by omega)
      refine h.setBlock rfl ?_ (fun hcon => absurd hcon (by cases p.eofSent <;> decide)) (by simp) _
      show p.previewBytes = _
      unfold Client.previewBytes
      rw [if_neg (by omega), if_pos hdata]
      exact (append_nil _).symm
    -- no preview is sent
    rw [if_neg hzero]
    have hneg : p.req.preview < 0 := by
      by_contra hcon
      refine hpos ⟨by omega, fun hnil => ?_⟩
      have := hlen (by omega)
      rw [hnil, length_nil] at this
      omega
    have hnone : p.previewBytes = [] := by
      unfold Client.previewBytes
      rw [if_pos hneg]
    exact (h.done hnone).congr rfl

theorem reqHeadersSent_goesOn (h : Between p c .writeReqHeaders) :
    GoesOn p (c.reqHeadersSent p.eofSent) := by
  unfold Client.reqHeadersSent
  rw [h.frame.entities]
  cases hget : getHeadersFromEntities (requestPack p.req).entities .resHdr with
  | none =>
    refine resHeadersSent_goesOn hp (h.skip ?_)
    rw [headersToDo, headerBlock_none hget]
    rfl
  | some q =>
    refine h.setBlock rfl ?_ (hp.resEmpty q.1 q.2 hget) (by simp) _
    rw [headersToDo, headerBlock_some hget]
    rfl

theorem icapHeadersSent_goesOn (h : Between p c .writeIcapHeaders) :
    GoesOn p (c.icapHeadersSent p.eofSent) := by
  unfold Client.icapHeadersSent
  rw [h.frame.entities]
  cases hget : getHeadersFromEntities (requestPack p.req).entities .reqHdr with
  | none =>
    refine reqHeadersSent_goesOn hp (h.skip ?_)
    rw [headersToDo, headerBlock_none hget]
    rfl
  | some q =>
    refine h.setBlock rfl ?_ (fun hbuf => ?_) (by simp) _
    · rw [headersToDo, headerBlock_some hget, append_assoc]
      rfl
    · obtain ⟨h1, h2⟩ := hp.reqEmpty q.1 q.2 hget hbuf
      unfold headersToDo
      rw [h1, h2]
      rfl

theorem blockSent_goesOn (hs : c.status.sendsHeaders = true) (h : Between p c c.status)
    (hinfo : c.status = .writePreviewInfo → p.req.previewData.data ≠ []) :
    GoesOn p (c.blockSent p.eofSent) := by
  unfold Client.blockSent
  cases hst : c.status with
  | writeIcapHeaders => exact icapHeadersSent_goesOn hp (hst ▸ h)
  | writeReqHeaders => exact reqHeadersSent_goesOn hp (hst ▸ h)
  | writeResHeaders => exact resHeadersSent_goesOn hp (hst ▸ h)
  | writePreviewInfo =>
    rw [hst] at h
    rw [h.frame.data]
    exact h.setBlock rfl (append_assoc _ _ _) (fun hcon => absurd hcon (hinfo hst)) (by simp) _
  | writePreview =>
    rw [hst] at h
    exact h.setBlock rfl (append_nil _).symm (by simp [crlf]) (by simp) _
  | writeEofInfo =>
    rw [hst] at h
    have hdone := h.done rfl
    refine ⟨⟨hdone.frame.preview, ?_, hdone.frame.source, hdone.frame.continued⟩, hdone.block,
      hdone.bytes⟩
    rw [hdone.frame.eofSent, Bool.or_self]
  | _ => rw [hst] at hs; cases hs

end

theorem content_writeBlock (c : Client) (n : Nat) :
    content (c.writeBlock n).wire ++ (c.writeBlock n).req.block.bytes =
      content c.wire ++ c.req.block.bytes := by
  show content (put c.wire (c.req.block.upTo n)) ++ c.req.block.bytes.drop n = _
  rw [content_put, append_assoc]
  exact congrArg (content c.wire ++ ·) (take_append_drop n c.req.block.bytes)

/-- `client_send_request_headers` while the headers are sent. -/
theorem sendRequestHeaders_goesOn (hp : Prepared c₀ p) (h : Sending p c) (write : Option Nat) :
    GoesOn p (c.sendRequestHeaders c.eofSent write) := by
  have hne : c.status ≠ .writeNothing := by
    intro hcon
    have hs := h.status
    rw [hcon] at hs
    cases hs
  rw [h.frame.eofSent]
  unfold Client.sendRequestHeaders
  rw [Client.startHeaders_of_ne hne]
  by_cases hb : c.req.block.bytes = []
  · -- an empty block is the last one
    rw [if_pos hb]
    refine ⟨h.frame.toHeaderFrame, hb, ?_⟩
    rw [← h.bytes, hb, h.empty hb, append_nil, append_nil]
  rw [if_neg hb]
  cases write with
  | none => trivial
  | some n =>
    have hframe : BlockFrame p (c.writeBlock n) :=
      ⟨⟨h.frame.preview, h.frame.eofSent, h.frame.source, h.frame.continued⟩,
        h.frame.entities, h.frame.data⟩
    have hbytes : content (c.writeBlock n).wire ++ (c.writeBlock n).req.block.bytes ++
        headersToDo p c.status = p.headerBytes ++ p.previewBytes := by
      rw [content_writeBlock]
      exact h.bytes
    dsimp only
    by_cases hrest : (c.writeBlock n).req.block.bytes ≠ []
    · rw [if_pos hrest]
      exact ⟨hframe, h.status, hbytes, fun hcon => absurd hcon hrest, h.info⟩
    · rw [if_neg hrest]
      rw [not_not.mp hrest, append_nil] at hbytes
      exact blockSent_goesOn hp h.status ⟨hframe, not_not.mp hrest, hbytes⟩ h.info

theorem startHeaders_sending (hp : Prepared c₀ p) : Sending p p.startHeaders := by
  have hstart : p.startHeaders = ({ p with req := requestPack p.req } : Client).setBlock
      .writeIcapHeaders (.head (requestPack p.req).requestHeader)
      (requestPack p.req).requestHeader.buf := by
    unfold Client.startHeaders
    rw [if_pos hp.status]
  rw [hstart]
  refine ⟨⟨⟨rfl, rfl, rfl, hp.continued⟩, rfl, rfl⟩, rfl, ?_, fun hcon => absurd hcon hp.head, by simp [Client.setBlock]⟩
  rw [hp.wire]
  show [] ++ (requestPack p.req).requestHeader.buf ++ (headerBlock (requestPack p.req).entities .reqHdr ++
    headerBlock (requestPack p.req).entities .resHdr ++ p.previewBytes) = _
  rw [← hp.blocks, ← append_assoc]
  rfl

end Headers

/-! ## The rest of the body -/

/-- The last chunk, once the end of the source has been reached behind the preview. -/
def lastSent (p c : Client) : List UInt8 :=
  if c.eofSent = true ∧ p.eofSent = false then LastChunk.plain.enc else []

/-- The rest of the source is sent in chunks. -/
structure Moving (p c : Client) : Prop where
  status : c.status.receiving = true
  noSource : p.source = none → c.source = none ∧
    content c.wire ++ c.req.block.bytes = p.headerBytes ++ p.previewBytes
  source : ∀ src, p.source = some src → ∃ src' cs, c.source = some src' ∧
    body cs ++ src'.stream = src.stream ∧
    content c.wire ++ c.req.block.bytes =
      p.headerBytes ++ p.previewBytes ++ enc cs ++ lastSent p c ∧
    (c.eofSent = true → src'.stream = [])
  ended : p.eofSent = true → c.eofSent = true
  continued : 0 ≤ p.req.preview → p.eofSent = false → c.continued = true

section Body

variable {c₀ p c c' : Client} (h : Moving p c)
include h

theorem Moving.reads (hr : Client.Reads c c') : Moving p c' := by
  have hwire : c'.wire = c.wire := congrArg SendSide.wire hr.send
  have hblock : c'.req.block = c.req.block := congrArg SendSide.block hr.send
  have hsource : c'.source = c.source := congrArg SendSide.source hr.send
  have heof : c'.eofSent = c.eofSent := congrArg SendSide.eofSent hr.send
  have hcont : c'.continued = c.continued := congrArg SendSide.continued hr.send
  refine ⟨hr.status h.status, ?_, ?_, ?_, ?_⟩
  · rw [hwire, hblock, hsource]; exact h.noSource
  · unfold lastSent
    rw [hwire, hblock, hsource, heof]
    exact h.source
  · rw [heof]; exact h.ended
  · rw [hcont]; exact h.continued

theorem Moving.noBody : Moving p (if c.source = none then { c with eofSent := true } else c) := by
  split_ifs with hnone
  · refine ⟨h.status, h.noSource, fun src hsrc => ?_, fun _ => rfl, h.continued⟩
    obtain ⟨src', cs, hcon, -⟩ := h.source src hsrc
    rw [hnone] at hcon
    cases hcon
  · exact h

theorem prepereBodyChunk_moving {needs : Bool}
    (hc : c.prepereBodyChunk = some (needs, c')) : Moving p c' := by
  unfold Client.prepereBodyChunk at hc
  split at hc
  · cases hc
    exact h
  rename_i src hsrc
  by_cases hidle : c.req.block.bytes ≠ [] ∨ c.eofSent = true
  · rw [if_pos hidle] at hc
    cases hc
    exact h
  rw [if_neg hidle] at hc
  have hblock : c.req.block.bytes = [] := by
    by_contra hcon
    exact hidle (.inl hcon)
  have heof : c.eofSent = false := by
    by_contra hcon
    exact hidle (.inr (by simpa using hcon))
  have hpeof : p.eofSent = false := by
    by_contra hcon
    rw [h.ended (by simpa using hcon)] at heof
    cases heof
  have hsome : p.source ≠ none := by
    intro hcon
    have := (h.noSource hcon).1
    rw [hsrc] at this
    cases this
  obtain ⟨src₀, hsrc₀⟩ := Option.ne_none_iff_exists'.mp hsome
  obtain ⟨src₁, cs, hsrc₁, hbody, hbytes, -⟩ := h.source src₀ hsrc₀
  obtain rfl := Option.some.inj (hsrc.symm.trans hsrc₁)
  have hlast : lastSent p c = [] := by
    unfold lastSent
    rw [if_neg (by simp [heof])]
  rw [hblock, hlast, append_nil, append_nil] at hbytes
  have hread := Source.read_spec src maxChunkSize
  split at hc
  · cases hc
  · -- the end of the source
    rename_i src' heq
    rw [heq] at hread
    cases hc
    refine ⟨h.status, fun hcon => absurd hcon hsome, fun s hs => ?_, fun _ => rfl, h.continued⟩
    obtain rfl := Option.some.inj (hsrc₀.symm.trans hs)
    refine ⟨src', cs, rfl, ?_, ?_, fun _ => hread.2⟩
    · rw [← hbody, hread.1, hread.2]
    · show content c.wire ++ (bytes "0" ++ crlf ++ crlf) = _
      unfold lastSent
      rw [if_pos ⟨rfl, hpeof⟩, hbytes]
      rfl
  · -- no data for now
    rename_i src' heq
    rw [heq] at hread
    cases hc
    refine ⟨h.status, fun hcon => absurd hcon hsome, fun s hs => ?_, h.ended, h.continued⟩
    obtain rfl := Option.some.inj (hsrc₀.symm.trans hs)
    refine ⟨src', cs, rfl, ?_, ?_, ?_⟩
    · rw [← hbody, ← hread.1]
      rfl
    · show content c.wire ++ c.req.block.bytes = _ ++ lastSent p c
      rw [hblock, hlast, append_nil, append_nil, hbytes]
    · simp [heof]
  · -- a chunk
    rename_i bs src' hne heq
    rw [heq] at hread
    have hbs : bs ≠ [] := fun hcon => hne (by rw [hcon])
    cases hc
    refine ⟨h.status, fun hcon => absurd hcon hsome, fun s hs => ?_, h.ended, h.continued⟩
    obtain rfl := Option.some.inj (hsrc₀.symm.trans hs)
    refine ⟨src', cs ++ [Chunk.ofData bs hbs], rfl, ?_, ?_, ?_⟩
    · rw [body_append, ← hbody, ← hread.1, append_assoc]
      simp [Chunk.ofData]
    · show content c.wire ++ chunkBytes bs = _ ++ lastSent p c
      rw [hlast, hbytes]
      simp [enc, Chunk.enc, Chunk.ofData, chunkBytes]
    · exact fun hcon => absurd hcon (by simp [Client.setBlock, heof])

theorem writeBlock_moving (n : Nat) : Moving p (c.writeBlock n) := by
  refine ⟨h.status, ?_, ?_, h.ended, h.continued⟩
  · rw [content_writeBlock]
    exact h.noSource
  · rw [content_writeBlock]
    exact h.source

theorem sendData_moving {call : ClientCall} {needs : Bool}
    (hc : c.sendData call = some (needs, c')) : Moving p c' := by
  unfold Client.sendData at hc
  split_ifs at hc
  · split at hc
    · cases hc
    rename_i needs' d heq
    have hd := prepereBodyChunk_moving h heq
    split_ifs at hc
    · cases hc
      exact hd
    · obtain ⟨n, -, hn⟩ := Option.map_eq_some_iff.mp hc
      cases hn
      exact writeBlock_moving hd n
  · cases hc
    exact h

/-- `ci_client_send_and_get_data` -/
theorem sendAndGetData_moving (call : ClientCall) :
    (c.sendAndGetData call).1 = .error ∨ Moving p (c.sendAndGetData call).2 := by
  unfold Client.sendAndGetData
  dsimp only
  have h' := h.noBody
  generalize (if c.source = none then { c with eofSent := true } else c : Client) = d at h' ⊢
  cases hsend : d.sendData call with
  | none => exact .inl rfl
  | some q =>
    have hq := sendData_moving h' (show d.sendData call = some (q.1, q.2) from hsend)
    have hget := hq.reads (Client.getData_reads q.2 call)
    dsimp only
    rcases hres : q.2.getData call with ⟨ret, e⟩
    rw [hres] at hget
    cases ret with
    | error => exact .inl rfl
    | fault => exact .inr hget
    | noContent => exact .inr (hget.reads ⟨rfl, id⟩)
    | ok | needsMore => exact .inr hget

end Body

/-! ## A call -/

/-- Where the client is in sending a prepared request. -/
inductive SendPhase (p c : Client) : Prop where
  | sending (h : Sending p c)
  | waiting (h : HeadersDone p c) (hs : c.status = .readPreviewResponse) (hp : 0 ≤ p.req.preview)
  | moving (h : Moving p c)
  | stopped (h : HeadersDone p c) (hs : c.status.sendsHeaders = false) (hr : c.ret = .done)

section Call

variable {c₀ p c c' : Client} {call : ClientCall}

theorem Prepared.ended (hp : Prepared c₀ p) (he : p.eofSent = true) :
    ∀ src, p.source = some src → src.stream = [] := by
  intro src hsrc
  cases hs₀ : c₀.source with
  | none =>
    have := (hp.noSource hs₀).1
    rw [hsrc] at this
    cases this
  | some src₀ =>
    obtain ⟨src', hsrc', -, hend⟩ := hp.source src₀ hs₀
    obtain rfl := Option.some.inj (hsrc.symm.trans hsrc')
    exact hend he

theorem HeadersDone.moving (hp : Prepared c₀ p) (h : HeadersDone p c) (hw : c'.wire = c.wire)
    (hb : c'.req.block = c.req.block) (hsource : c'.source = c.source)
    (heof : c'.eofSent = c.eofSent) (hs : c'.status.receiving = true)
    (hcont : 0 ≤ p.req.preview → p.eofSent = false → c'.continued = true) : Moving p c' := by
  have heof : c'.eofSent = p.eofSent := heof.trans h.frame.eofSent
  have hsource : c'.source = p.source := hsource.trans h.frame.source
  have hbytes : content c'.wire ++ c'.req.block.bytes = p.headerBytes ++ p.previewBytes := by
    rw [hw, hb, h.block, append_nil, h.bytes]
  have hlast : lastSent p c' = [] := by
    unfold lastSent
    rw [if_neg]
    rintro ⟨h1, h2⟩
    rw [← heof, h1] at h2
    cases h2
  refine ⟨hs, fun hnone => ⟨hsource.trans hnone, hbytes⟩, fun src hsrc => ?_,
    fun he => heof.trans he, hcont⟩
  refine ⟨src, [], hsource.trans hsrc, rfl, ?_, fun he => hp.ended (heof.symm.trans he) src hsrc⟩
  rw [hbytes, hlast]
  simp

/-- A result of a call, with the phase the client is in. -/
def StaysIn (p : Client) (res : FilterRet × Client) : Prop :=
  res.1 = .error ∨ SendPhase p { res.2 with ret := res.1 }

theorem Moving.stays {res : FilterRet × Client} (h : res.1 = .error ∨ Moving p res.2) :
    StaysIn p res :=
  h.imp_right fun hm => .moving (hm.reads ⟨rfl, id⟩)

theorem headersSent_stays (hp : Prepared c₀ p) (h : HeadersDone p c) :
    StaysIn p (c.headersSent call) := by
  have honly : c.req.EntitiesOnly c.req.releaseEntities :=
    (putToTrash_entitiesOnly c.req.entities c.req).trans rfl
  have hrel : HeadersDone p { c with req := c.req.releaseEntities } := by
    refine h.congr ?_
    unfold Client.sendSide
    rw [honly]
  unfold Client.headersSent
  dsimp only
  have hpv : c.req.releaseEntities.preview = p.req.preview := hrel.frame.preview
  rw [hpv]
  split_ifs with hnn
  · exact .inr (.waiting (hrel.congr rfl) rfl hnn)
  · refine Moving.stays (sendAndGetData_moving ?_ call)
    exact hrel.moving hp rfl rfl rfl rfl rfl (fun h0 => absurd h0 hnn)

theorem sendHeaders_stays (hp : Prepared c₀ p)
    (h : GoesOn p (c.sendRequestHeaders c.eofSent call.headWrite)) :
    StaysIn p (c.sendHeaders call) := by
  unfold Client.sendHeaders
  rcases hres : c.sendRequestHeaders c.eofSent call.headWrite with ⟨ret, d⟩
  rw [hres] at h
  cases ret with
  | ok => exact headersSent_stays hp (h.congr rfl)
  | needsMore => exact .inr (.sending ⟨⟨⟨h.frame.preview, h.frame.eofSent, h.frame.source,
      h.frame.continued⟩, h.frame.entities, h.frame.data⟩, h.status, h.bytes, h.empty, h.info⟩)
  | error => exact .inl rfl
  | noContent | fault => cases h

/-- The answer to the preview: nothing has been written. -/
theorem previewedResponse_spec {status : Int} (h : HeadersDone p c)
    (hs : c.status = .readPreviewResponse) (hc : c.previewedResponse status = some c') :
    (status = 100 ∧ c'.status = .getNothing ∧ c'.continued = true ∧
      c'.wire = c.wire ∧ c'.req.block = c.req.block ∧ c'.source = c.source ∧
      c'.eofSent = c.eofSent) ∨
    (status ≠ 100 ∧ HeadersDone p c' ∧ c'.status.sendsHeaders = false ∧
      (c'.status = .readPreviewResponse ∨ c'.status.receiving = true ∧
        (status = 206 ∨ c.eofSent = true))) := by
  unfold Client.previewedResponse at hc
  by_cases h204 : status = 204
  · rw [if_pos h204] at hc
    obtain rfl := Option.some.inj hc
    refine .inr ⟨by omega, h.congr rfl, ?_, .inl hs⟩
    show c.status.sendsHeaders = false
    rw [hs]
    rfl
  rw [if_neg h204] at hc
  by_cases h200 : (c.eofSent = true ∧ status = 200) ∨ status = 206
  · rw [if_pos h200] at hc
    obtain ⟨d, hd, rfl⟩ := Option.map_eq_some_iff.mp hc
    have hunpack : Client.Reads c c.unpackResponse := ⟨rfl, id⟩
    have hdone := h.congr (hunpack.trans (Client.responseEntities_reads hd).1).send
    refine .inr ⟨by omega, hdone.congr rfl, ?_, .inr ⟨?_, ?_⟩⟩
    · split_ifs <;> rfl
    · split_ifs <;> rfl
    · exact h200.elim (fun h => .inr h.1) .inl
  rw [if_neg h200] at hc
  obtain rfl := Option.some.inj hc
  by_cases h100 : status = 100
  · simp [h100]
  · right
    refine ⟨h100, ?_, ?_, ?_⟩
    · refine ⟨⟨h.frame.preview, h.frame.eofSent, h.frame.source, ?_⟩, h.block, h.bytes⟩
      simpa [h100] using h.frame.continued
    · simp [h100, hs, ClientStatus.sendsHeaders]
    · simp [h100, hs]

theorem readPreviewResponse_stays (hp : Prepared c₀ p) (h : HeadersDone p c)
    (hs : c.status = .readPreviewResponse) (h0 : 0 ≤ p.req.preview) :
    StaysIn p (c.readPreviewResponse call) := by
  unfold Client.readPreviewResponse
  split
  · exact .inl rfl
  rename_i d hd
  have hdd := h.congr (Client.netDataRead_reads hd).send
  have hds : d.status = .readPreviewResponse := by
    unfold Client.netDataRead at hd
    split at hd
    · cases hd
    · obtain ⟨rd, -, rfl⟩ := Option.map_eq_some_iff.mp hd
      exact hs
  obtain ⟨hreads, hst⟩ := Client.parseIcapHeader_reads d
  rcases hparse : d.parseIcapHeader with ⟨ret, e⟩
  rw [hparse] at hreads hst
  have hee := hdd.congr hreads.send
  have hes : e.status = .readPreviewResponse := hst.trans hds
  have hwait : StaysIn p (.wants true false false false, e) :=
    .inr (.waiting (hee.congr rfl) hes h0)
  cases ret with
  | ok =>
    dsimp only
    split
    · exact .inl rfl
    rename_i status _
    split
    · exact .inl rfl
    rename_i f hf
    rcases previewedResponse_spec hee hes hf with
      ⟨rfl, hfs, hcont, hw, hb, hsrc, heof⟩ | ⟨h100, hff, hnh, hcase⟩
    · -- the server asks for the rest
      exact .inr (.moving (hee.moving hp hw hb hsrc heof (by rw [hfs]; rfl) fun _ _ => hcont))
    have hff' : HeadersDone p { f with returnCode := status } := hff.congr rfl
    split_ifs with hdone hprev
    · exact .inr (.stopped (hff'.congr rfl) hnh rfl)
    · exact .inr (.stopped (hff'.congr rfl) hnh rfl)
    · rcases hcase with hcase | ⟨hrec, hcase⟩
      · exact absurd hcase hprev
      · have heof : p.eofSent = true := by
          rw [← hee.frame.eofSent]
          exact hcase.resolve_left (by omega)
        exact Moving.stays (sendAndGetData_moving (hff'.moving hp rfl rfl rfl rfl hrec
          fun _ hfalse => absurd (heof.symm.trans hfalse) (by simp)) call)
  | needsMore | error | noContent | fault => exact hwait

end Call

/-! ## Runs -/

def Client.Sent (c : Client) : Prop :=
  c.eofSent = true ∧ c.req.block.bytes = [] ∧
    (c.status = .readPreviewResponse ∨ c.status.receiving = true)

/-- The invariant of a run that begins with `c₀`. -/
def ClientInv (args : FilterArgs) (c₀ c : Client) : Prop :=
  c = c₀ ∨ (∃ p, prepareHeaders args c₀ = some p ∧ SendPhase p c) ∨ c.ret = .error

section Run

variable {args : FilterArgs} {c₀ p c : Client}

theorem SendPhase.call (hp : Prepared c₀ p) (h : SendPhase p c) (hret : c.ret ≠ .done)
    (call : ClientCall) : StaysIn p (c.icapfilterNonblocking args call) := by
  unfold Client.icapfilterNonblocking
  cases h with
  | sending h =>
    have hsend : StaysIn p (c.sendHeaders call) := sendHeaders_stays hp
      (sendRequestHeaders_goesOn hp h call.headWrite)
    have hs := h.status
    cases hst : c.status <;> rw [hst] at hs <;> first | exact hsend | cases hs
  | waiting h hs h0 =>
    rw [hs]
    rw [h.frame.preview, if_pos h0]
    exact readPreviewResponse_stays hp h hs h0
  | moving h =>
    have hmove := Moving.stays (sendAndGetData_moving h call)
    have hs := h.status
    cases hst : c.status <;> rw [hst] at hs <;> first | exact hmove | cases hs
  | stopped h hs hr => exact absurd hr hret

theorem step_clientInv (hr : c₀.Ready) (hl : args.ListsSent c₀)
    (hone : ∀ src, c₀.source = some src → PreviewInOne c₀.req.preview.toNat src)
    (c : Client) (call : ClientCall) (h : ClientInv args c₀ c) :
    ClientInv args c₀ (c.step args call) := by
  unfold Client.step
  cases hret : c.ret with
  | done | error | fault => exact h
  | wants a b d e =>
    have hres : ∀ {p : Client} {res : FilterRet × Client}, prepareHeaders args c₀ = some p →
        StaysIn p res → ClientInv args c₀ { res.2 with ret := res.1 } := by
      intro p res hprep hstay
      rcases hstay with herr | hphase
      · exact .inr (.inr herr)
      · exact .inr (.inl ⟨p, hprep, hphase⟩)
    rcases h with rfl | ⟨p, hprep, hphase⟩ | herr
    · unfold Client.icapfilterNonblocking
      rw [hr.status]
      cases hprep : prepareHeaders args c with
      | none => exact .inr (.inr rfl)
      | some p =>
        have hp := prepareHeaders_spec hr hl hone hprep
        refine hres hprep (sendHeaders_stays hp ?_)
        -- the head is packed before its first byte is written
        have hsend := startHeaders_sending hp
        have heof : p.startHeaders.eofSent = p.eofSent := hsend.frame.eofSent
        have hgo := sendRequestHeaders_goesOn hp hsend call.headWrite
        have hne : p.startHeaders.status ≠ .writeNothing := by
          unfold Client.startHeaders
          rw [if_pos hp.status]
          simp [Client.setBlock]
        have hidem : p.startHeaders.startHeaders = p.startHeaders := Client.startHeaders_of_ne hne
        unfold Client.sendRequestHeaders at hgo ⊢
        rw [hidem, heof] at hgo
        exact hgo
    · exact hres hprep (hphase.call (prepareHeaders_spec hr hl hone hprep)
        (by rw [hret]; simp) call)
    · rw [hret] at herr
      cases herr

end Run

/-- What is sent of a source behind the headers: the whole body without a preview; a preview that
is the whole body; or a preview and, after `100 Continue`, the rest. -/
inductive Transfer (preview : Int) (continued : Bool) (stream : List UInt8) : List UInt8 → Prop where
  | whole (cs : List Chunk) (hp : preview < 0) (hb : body cs = stream) :
      Transfer preview continued stream (enc cs ++ LastChunk.plain.enc)
  | ended (cs : List Chunk) (hp : 0 ≤ preview) (hb : body cs = stream) :
      Transfer preview continued stream (enc cs ++ LastChunk.ieof.enc)
  | rest (cs ds : List Chunk) (hp : 0 ≤ preview) (hc : continued = true)
      (hb : body (cs ++ ds) = stream) :
      Transfer preview continued stream
        (enc cs ++ LastChunk.plain.enc ++ enc ds ++ LastChunk.plain.enc)

theorem previewBytes_eq {p : Client} (h0 : 0 ≤ p.req.preview) : ∃ cs,
    body cs = p.req.previewData.data ∧
    p.previewBytes = enc cs ++ (if p.eofSent then LastChunk.ieof else LastChunk.plain).enc := by
  unfold Client.previewBytes
  rw [if_neg (by omega), previewEnd_eq]
  by_cases hd : p.req.previewData.data = []
  · exact ⟨[], hd.symm, by rw [if_pos hd]; rfl⟩
  · refine ⟨[Chunk.ofData _ hd], by simp [Chunk.ofData], ?_⟩
    rw [if_neg hd]
    simp [enc, Chunk.enc, Chunk.ofData, chunkBytes]

section Transfer

variable {c₀ p : Client} {src src' : Source} {continued : Bool}

theorem Prepared.transfer_ended (hp : Prepared c₀ p) (heof : p.eofSent = true)
    (hsrc : c₀.source = some src) :
    Transfer c₀.req.preview continued src.stream p.previewBytes := by
  obtain ⟨src', -, hstream, hend⟩ := hp.source src hsrc
  rcases hp.preview with ⟨-, -, hnot, -⟩ | ⟨hprev, hlen⟩
  · rw [heof] at hnot
    cases hnot
  · obtain ⟨cs, hcs, hbytes⟩ := previewBytes_eq (p := p) (by omega)
    rw [hbytes, if_pos heof]
    refine .ended cs ?_ ?_
    · unfold Client.NoPreview at hprev
      omega
    · rw [hcs, ← hstream, hend heof, append_nil]

/-- A preview, if there is one, and the rest of the body. -/
theorem Prepared.transfer_rest (hp : Prepared c₀ p) (heof : p.eofSent = false)
    (hsrc : c₀.source = some src) (hsrc' : p.source = some src')
    (hcont : 0 ≤ p.req.preview → continued = true) {cs : List Chunk}
    (hcs : body cs = src'.stream) :
    Transfer c₀.req.preview continued src.stream
      (p.previewBytes ++ enc cs ++ LastChunk.plain.enc) := by
  obtain ⟨_, h', hstream, -⟩ := hp.source src hsrc
  obtain rfl := Option.some.inj (h'.symm.trans hsrc')
  rcases hp.preview with ⟨hno, hneg, -, hnil⟩ | ⟨hprev, hlen⟩
  · have hnone : p.previewBytes = [] := if_pos hneg
    rw [hnone]
    refine .whole cs ?_ ?_
    · rcases hno with hno | hno
      · rw [hsrc] at hno
        cases hno
      · exact hno
    · rw [hcs, ← hstream, hnil, nil_append]
  · obtain ⟨ps, hps, hbytes⟩ := previewBytes_eq (p := p) (by omega)
    rw [hbytes, heof]
    refine .rest ps cs ?_ (hcont (by omega)) ?_
    · unfold Client.NoPreview at hprev
      omega
    · rw [body_append, hps, hcs, hstream]

end Transfer

/-- **The client sends the source.** A request object with a data source that returns its data
in pieces of any sizes (the preview in one piece), with any header lists (an empty one not before
something else that is sent with the headers) is sent under any sequence of calls and partial
writes. Whenever the client has sent all it has to send, the wire holds the ICAP head, the
encapsulated headers, and a chunked preview and, after `100 Continue`, a chunked remainder that
decode to exactly the data of the source. -/
theorem client_sends_source {args : FilterArgs} {c₀ c : Client} (hr : c₀.Ready)
    (hl : args.ListsSent c₀)
    (hone : ∀ src, c₀.source = some src → PreviewInOne c₀.req.preview.toNat src)
    (calls : List ClientCall) (hc : c = Machine.run (Client.step args) c₀ calls)
    (hok : c.ret ≠ .error) (hsent : c.Sent) :
    ∃ p, prepareHeaders args c₀ = some p ∧ ∃ out, content c.wire = p.headerBytes ++ out ∧
      (c₀.source = none → out = []) ∧
      ∀ src, c₀.source = some src → Transfer c₀.req.preview c.continued src.stream out := by
  have hinv : ClientInv args c₀ c := by
    rw [hc]
    exact Machine.run_inv_all (step_clientInv hr hl hone) (.inl rfl) calls
  obtain ⟨heof, hblock, hst⟩ := hsent
  rcases hinv with rfl | ⟨p, hprep, hphase⟩ | herr
  · rw [hr.eofSent] at heof
    cases heof
  · have hp := prepareHeaders_spec hr hl hone hprep
    have hnone : c₀.source = none → p.eofSent = false := by
      intro h
      rcases hp.preview with ⟨-, -, hno, -⟩ | ⟨hprev, -⟩
      · exact hno
      · exact absurd (.inl h) hprev
    -- the client stops behind the headers only when the preview has the end of the body
    have hdone : HeadersDone p c → ∃ out, content c.wire = p.headerBytes ++ out ∧
        (c₀.source = none → out = []) ∧
        ∀ src, c₀.source = some src → Transfer c₀.req.preview c.continued src.stream out := by
      intro h
      have heof' : p.eofSent = true := h.frame.eofSent.symm.trans heof
      refine ⟨p.previewBytes, h.bytes, fun hn => ?_, fun src hsrc => hp.transfer_ended heof' hsrc⟩
      rw [hnone hn] at heof'
      cases heof'
    refine ⟨p, hprep, ?_⟩
    cases hphase with
    | sending h =>
      have hs := h.status
      rcases hst with hst | hst
      · rw [hst] at hs
        cases hs
      · cases hcs : c.status <;> rw [hcs] at hs hst <;> cases hs <;> cases hst
    | waiting h _ _ | stopped h _ _ => exact hdone h
    | moving h =>
      cases hsrc : c₀.source with
      | none =>
        obtain ⟨hsn, hneg⟩ := hp.noSource hsrc
        obtain ⟨-, hbytes⟩ := h.noSource hsn
        refine ⟨[], ?_, fun _ => rfl, fun _ hs => (by cases hs)⟩
        have hno : p.previewBytes = [] := if_pos hneg
        rw [hblock, append_nil, hno] at hbytes
        exact hbytes
      | some src =>
        obtain ⟨src', hsrc', -, hend⟩ := hp.source src hsrc
        obtain ⟨src'', cs, -, hcs, hbytes, hdry⟩ := h.source src' hsrc'
        rw [hdry heof, append_nil] at hcs
        rw [hblock, append_nil] at hbytes
        refine ⟨p.previewBytes ++ enc cs ++ lastSent p c, ?_, fun hs => (by cases hs), ?_⟩
        · rw [hbytes]
          simp only [append_assoc]
        · rintro _ ⟨rfl⟩
          unfold lastSent
          cases hpe : p.eofSent with
          | true =>
            have hnil : cs = [] := eq_nil_of_body_eq_nil (hcs.trans (hend hpe))
            rw [hnil]
            simpa [enc] using hp.transfer_ended hpe hsrc
          | false =>
            rw [if_pos ⟨heof, rfl⟩]
            exact hp.transfer_rest hpe hsrc hsrc' (fun h0 => h.continued h0 hpe) hcs
  · exact absurd herr hok

def sampleRequest (src : Source) : Client where
  req := { type := some .reqmod, service := bytes "echo", reqServer := bytes "localhost",
           preview := 2 }
  source := some src
  input := bytes "ICAP/1.0 100 Continue\r\n\r\n"

def sampleArgs : FilterArgs where
  reqHeaders := some [bytes "POST / HTTP/1.1"]
  previewMem := [0, 0]

/-- The headers go out in pieces, then `100 Continue` arrives and the rest is sent. -/
def sampleCalls : List ClientCall :=
  [{ headWrite := some 20 }, { headWrite := some 200 }, { headWrite := some 200 },
   { headWrite := some 200 }, { headWrite := some 200 }, { headWrite := some 200 },
   { ioRead := true, previewRead := some 100 }, { ioWrite := true, dataWrite := some 5 },
   { ioWrite := true, dataWrite := some 100 }, { ioWrite := true, dataWrite := some 100 }]

/-- The source has the preview in one piece. -/
theorem client_sends_sample : ∃ p,
    prepareHeaders sampleArgs (sampleRequest [.data (bytes "ab"), .data (bytes "c")]) = some p ∧
    ∃ out, content (Machine.run (Client.step sampleArgs)
      (sampleRequest [.data (bytes "ab"), .data (bytes "c")]) sampleCalls).wire =
        p.headerBytes ++ out ∧ Transfer 2 true (bytes "abc") out := by
  obtain ⟨p, hprep, out, hwire, -, hsource⟩ := @client_sends_source
    sampleArgs (sampleRequest [.data (bytes "ab"), .data (bytes "c")]) _
    ⟨rfl, rfl, rfl, rfl, rfl, ⟨rfl, rfl⟩, rfl, rfl⟩ ⟨by rintro ⟨⟩, by rintro ⟨⟩⟩
    (by rintro _ ⟨rfl⟩; exact .inl (by decide)) sampleCalls rfl (by decide +kernel)
    ⟨by decide +kernel, by decide +kernel, by decide +kernel⟩
  refine ⟨p, hprep, out, hwire, ?_⟩
  exact hsource _ rfl

/-- The source has the same two bytes in two pieces: both are read to the start of the preview
buffer, and the second one and what the memory held before go out. -/
theorem preview_pieces_overwritten : ∃ c,
    c = Machine.run (Client.step sampleArgs)
      (sampleRequest [.data (bytes "a"), .data (bytes "b")]) sampleCalls ∧
    c.ret ≠ .error ∧ c.Sent ∧
    content c.wire = bytes ("REQMOD icap://localhost/echo ICAP/1.0\r\nHost: localhost\r\n" ++
      "User-Agent: C-ICAP-Client-Library/0.6.4\r\nPreview: 2\r\n" ++
      "Encapsulated: req-hdr=0, req-body=19\r\n\r\nPOST / HTTP/1.1\r\n\r\n" ++
      "2\r\nb\x00\r\n0\r\n\r\n0\r\n\r\n") :=
  ⟨_, rfl, by decide +kernel, ⟨by decide +kernel, by decide +kernel, by decide +kernel⟩,
    by decide +kernel⟩

end CIcap
