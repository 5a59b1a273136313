import CIcap.Client.Receive

/-! # Whole exchanges of the client

A run of the client library from the request to the end of the response. The headers are sent,
then the answer to the preview is read where a preview was sent, and then the response. The
receiving side is untouched until the answer is read, and behind it the invariant of
`Client/Receive.lean` holds (`client_receives_body`).
-/

namespace CIcap

open CText Chunked

/-! ## Sending leaves the receiving side alone -/

/-- What is sent changes nothing that the answer is read with. -/
structure Keeps (c c' : Client) : Prop where
  side : c'.readSide = c.readSide
  preview : c'.req.preview = c.req.preview
  eofSent : c'.eofSent = c.eofSent

theorem Keeps.trans {c d e : Client} (h : Keeps c d) (h' : Keeps d e) : Keeps c e :=
  ⟨h'.side.trans h.side, h'.preview.trans h.preview, h'.eofSent.trans h.eofSent⟩

/-- The headers are not sent yet. -/
def ClientStatus.beforeAnswer (s : ClientStatus) : Prop := s = .writeNothing ∨ s.sendsHeaders = true

/-- A function that sends headers: while there is more to send, it stays with the headers. -/
def KeepsSending (c : Client) (res : ClientRet × Client) : Prop :=
  Keeps c res.2 ∧ (res.1 = .needsMore → res.2.status.beforeAnswer)

section Sending

variable {c : Client} (hasEof : Bool)

theorem resHeadersSent_keeps : KeepsSending c (c.resHeadersSent hasEof) := by
  unfold Client.resHeadersSent
  split_ifs
  · exact ⟨⟨rfl, rfl, rfl⟩, fun _ => .inr rfl⟩
  · exact ⟨⟨rfl, rfl, rfl⟩, fun _ => .inr rfl⟩
  · exact ⟨⟨rfl, rfl, rfl⟩, fun h => by cases h⟩

theorem reqHeadersSent_keeps : KeepsSending c (c.reqHeadersSent hasEof) := by
  unfold Client.reqHeadersSent
  split
  · exact ⟨⟨rfl, rfl, rfl⟩, fun _ => .inr rfl⟩
  · obtain ⟨h1, h2⟩ := resHeadersSent_keeps (c := { c with status := .writeResHeaders }) hasEof
    exact ⟨{ h1 with }, h2⟩

theorem icapHeadersSent_keeps : KeepsSending c (c.icapHeadersSent hasEof) := by
  unfold Client.icapHeadersSent
  split
  · exact ⟨⟨rfl, rfl, rfl⟩, fun _ => .inr rfl⟩
  · obtain ⟨h1, h2⟩ := reqHeadersSent_keeps (c := { c with status := .writeReqHeaders }) hasEof
    exact ⟨{ h1 with }, h2⟩

theorem blockSent_keeps (heof : hasEof = c.eofSent) : KeepsSending c (c.blockSent hasEof) := by
  unfold Client.blockSent
  split
  · exact icapHeadersSent_keeps hasEof
  · exact reqHeadersSent_keeps hasEof
  · exact resHeadersSent_keeps hasEof
  · exact ⟨⟨rfl, rfl, rfl⟩, fun _ => .inr rfl⟩
  · exact ⟨⟨rfl, rfl, rfl⟩, fun _ => .inr rfl⟩
  · exact ⟨⟨rfl, rfl, by simp [heof]⟩, fun h => by cases h⟩
  · exact ⟨⟨rfl, rfl, rfl⟩, fun h => by cases h⟩

theorem startHeaders_keeps (hs : c.status.beforeAnswer) :
    Keeps c c.startHeaders ∧ c.startHeaders.status.beforeAnswer := by
  unfold Client.startHeaders
  split_ifs
  · exact ⟨⟨rfl, rfl, rfl⟩, .inr rfl⟩
  · exact ⟨⟨rfl, rfl, rfl⟩, hs⟩

theorem sendRequestHeaders_keeps (hs : c.status.beforeAnswer) (write : Option Nat) :
    KeepsSending c (c.sendRequestHeaders c.eofSent write) := by
  obtain ⟨hkeeps, hs'⟩ := startHeaders_keeps hs
  unfold Client.sendRequestHeaders
  dsimp only
  split_ifs
  · exact ⟨hkeeps, fun h => by cases h⟩
  cases write with
  | none => exact ⟨hkeeps, fun h => by cases h⟩
  | some n =>
    have hwrite : Keeps c (c.startHeaders.writeBlock n) :=
      { hkeeps with }
    dsimp only
    split_ifs
    · exact ⟨hwrite, fun _ => hs'⟩
    · obtain ⟨h1, h2⟩ := blockSent_keeps (c := c.startHeaders.writeBlock n) c.eofSent
        hwrite.eofSent.symm
      exact ⟨hwrite.trans h1, h2⟩

theorem preparePreview_side {args : FilterArgs} {c c' : Client}
    (h : preparePreview args c = some c') :
    c'.readSide = c.readSide ∧ c'.req.packed = c.req.packed := by
  unfold preparePreview at h
  split at h
  · obtain rfl := Option.some.inj h
    exact ⟨rfl, rfl⟩
  unfold readPreview at h
  split_ifs at h
  · dsimp only at h
    split at h
    · cases h
    · obtain rfl := Option.some.inj h
      exact ⟨rfl, rfl⟩
  · obtain rfl := Option.some.inj h
    exact ⟨rfl, rfl⟩

/-- `prepare_headers` leaves the receiving side alone. -/
theorem prepareHeaders_side {args : FilterArgs} {c p : Client} (hpk : c.req.packed = false)
    (h : prepareHeaders args c = some p) : p.readSide = c.readSide ∧ p.status = .writeNothing := by
  unfold prepareHeaders at h
  split at h
  · cases h
  rename_i req hreq
  obtain ⟨c₁, hstage, rfl⟩ := Option.map_eq_some_iff.mp h
  obtain ⟨hside, hpk₁⟩ := preparePreview_side hstage
  have hcreate : ({ c with req := req } : Client).readSide = c.readSide ∧
      req.packed = c.req.packed := by
    obtain ⟨type, -, rfl⟩ := Option.map_eq_some_iff.mp hreq
    exact ⟨rfl, rfl⟩
  obtain ⟨-, -, -, -, -, -, honly, -⟩ := callerEntities args c₁.req
    (hpk₁.trans (hcreate.2.trans hpk)) c₁.source.isSome
  refine ⟨Eq.trans ?_ (hside.trans hcreate.1), rfl⟩
  unfold Client.readSide
  dsimp only
  rw [honly]

end Sending

/-! ## The answer to the preview -/

/-- `100 Continue`, with any other lines. -/
structure Interim where
  first : StatusLine
  lines : List (List UInt8)
  isContinue : first.status = 100
  plain : ∀ l ∈ lines, TextLine l

def Interim.text (i : Interim) : List UInt8 := headText (i.first.text :: i.lines)

theorem Interim.endsHead (i : Interim) : EndsHead i.text :=
  endsHead_headText (by simp) (by
    intro l hl
    rcases List.mem_cons.mp hl with rfl | hl
    · exact i.first.textLine
    · exact i.plain l hl)

theorem Interim.scanStatus (i : Interim) :
    Client.scanStatus (i.text.take (i.text.length - 2)) = some 100 := by
  unfold Interim.text
  rw [take_headText, linesText_cons, List.append_assoc, i.first.scanStatus_text, i.isContinue]

/-- What the server sends before the response. -/
def interimText (i : Option Interim) : List UInt8 := (i.map Interim.text).getD []

/-- The client waits for the answer to the preview. -/
structure Waiting (r : Response) (rest : List UInt8) (interim : Option Interim) (c : Client) :
    Prop where
  status : c.status = .readPreviewResponse
  quiet : c.Quiet
  entities : c.req.entities = []
  stream : c.head ++ c.unread = interimText interim ++ (r.bytes ++ rest)
  length : c.head.length + 4 ≤ ((interim.map Interim.text).getD r.head).length
  preview : 0 ≤ c.req.preview
  answered : interim.isSome = true ∨ (c.eofSent = true ∧ r.first.status = 200)

/-- The client waits, or it has failed, or it reads the response. -/
def AnswerOn (r : Response) (rest : List UInt8) (interim : Option Interim)
    (res : FilterRet × Client) : Prop :=
  FilterOn r rest res ∨ (res.1 ≠ .done ∧ Waiting r rest interim res.2)

section Answer

variable {r : Response} {rest : List UInt8} {interim : Option Interim} {c : Client}

theorem Waiting.read {c' : Client} {k : Option Nat} (h : Waiting r rest interim c)
    (hread : c.netDataRead k = some c') : Waiting r rest interim c' := by
  have hsame := netDataRead_same hread
  have hsend := (Client.netDataRead_reads hread).send
  exact
    { status := hsame.status.trans h.status
      quiet := h.quiet.congr hsame
      entities := hsame.entities.trans h.entities
      stream := by rw [hsame.head, hsame.unread]; exact h.stream
      length := by rw [hsame.head]; exact h.length
      preview := by
        rw [show c'.req.preview = c.req.preview from congrArg SendSide.preview hsend]
        exact h.preview
      answered := by
        rw [show c'.eofSent = c.eofSent from congrArg SendSide.eofSent hsend]
        exact h.answered }

theorem Waiting.takeHead (h : Waiting r rest interim c) {n : Nat}
    (hlen : (c.takeHead n).head.length + 4 ≤ ((interim.map Interim.text).getD r.head).length) :
    Waiting r rest interim (c.takeHead n) :=
  { h with
    quiet := h.quiet.takeHead n
    stream := (takeHead_stream c n).trans h.stream
    length := hlen }

/-- After `100 Continue` the response is next. -/
theorem previewedResponse_continue (hq : c.Quiet) (hes : c.req.entities = [])
    (hstream : c.unread = r.bytes ++ rest) :
    ∃ c', c.previewedResponse 100 = some c' ∧ Reading r rest { c' with returnCode := 100 } := by
  have hres : c.previewedResponse 100 = some { c with
      status := .getNothing
      continued := true
      head := []
      req := { c.req with responseHeader := c.req.responseHeader.reset } } := by
    unfold Client.previewedResponse
    simp
  refine ⟨_, hres, .head rfl ?_ hes hstream ?_⟩
  · exact { hq with }
  · have := r.endsHead.four_le
    simpa using this

/-- A response to a preview that had the end of the body in it. -/
theorem previewedResponse_final (hcs : ∀ chunk ∈ r.chunks, ChunkFits chunk) (hq : c.Quiet)
    (hes : c.req.entities = []) (hhead : c.head = linesText r.lines)
    (hstream : c.unread = r.block ++ (enc r.chunks ++ r.last.enc ++ rest))
    (heof : c.eofSent = true) :
    ∃ c', c.previewedResponse 200 = some c' ∧ c'.status ≠ .readPreviewResponse ∧
      Reading r rest { c' with returnCode := 200 } := by
  obtain ⟨-, c', hread, hentries, -, hside⟩ := r.read_head hhead hes
  have hrd : c'.req.rd = c.req.rd := congrArg ReadSide.rd hside
  have hinput : c'.input = c.input := congrArg ReadSide.input hside
  have hnil : c'.head = [] := congrArg ReadSide.head hside
  have hacc : c'.accepted = c.accepted := congrArg ReadSide.accepted hside
  have hwriter : c'.writer = c.writer := congrArg ReadSide.writer hside
  have hunread : c'.unread = r.block ++ (enc r.chunks ++ r.last.enc ++ rest) := by
    unfold Client.unread
    rw [hrd, hinput]
    exact hstream
  have hquiet : c'.Quiet :=
    { writer := by rw [hwriter]; exact hq.writer
      pending := by rw [hrd]; exact hq.pending
      accepted := hacc.trans hq.accepted
      line := by rw [hrd]; exact hq.line
      short := by rw [hrd]; exact hq.short }
  refine ⟨{ c' with status := if c'.req.entities.length < 2 then .getBody else .getHeaders }, ?_,
    ?_, ?_⟩
  · unfold Client.previewedResponse
    rw [if_neg (by decide), if_pos (.inl ⟨heof, rfl⟩), hread]
    rfl
  · split_ifs <;> simp
  · by_cases hblock : r.block = []
    · obtain ⟨b, hent⟩ := Response.one_entity hblock hentries
      rw [hblock] at hunread
      refine .body ?_ (.line r.chunks) (by simp) ?_
      · rw [hent]
        rfl
      · exact
          { hquiet with
            at_pos := hquiet.line
            fits := hcs
            stream := hunread
            taken := by
              rw [hquiet.accepted]
              rfl }
    · obtain ⟨e, b, hent, -, -⟩ := Response.two_entities hblock hentries
      refine .headers ?_ { hquiet with } hentries ?_ ?_
      · rw [hent]
        rfl
      · rw [hnil]
        exact hunread
      · rw [hnil]
        exact List.length_pos_iff.mpr hblock

theorem readPreviewResponse_on (ht : r.last.Fits) (hcs : ∀ chunk ∈ r.chunks, ChunkFits chunk)
    (h : Waiting r rest interim c) (call : ClientCall) :
    AnswerOn r rest interim (c.readPreviewResponse call) := by
  unfold Client.readPreviewResponse
  cases hread : c.netDataRead call.previewRead with
  | none => exact .inl (.inl rfl)
  | some d =>
    have hd := h.read hread
    have hlen := hd.length
    cases hi : interim with
    | some i =>
      rw [hi] at hlen
      have hstream : d.head ++ d.unread = i.text ++ (r.bytes ++ rest) := by
        have := hd.stream
        rw [hi] at this
        exact this
      rcases parseIcapHeader_spec i.endsHead hstream hlen with
        ⟨n, hres, hmore⟩ | ⟨n, hres, hall⟩
      · dsimp only
        rw [hres]
        exact .inr ⟨by simp, hi ▸ hd.takeHead (by rw [hi]; exact hmore)⟩
      have hq' := hd.quiet.takeHead n
      obtain ⟨c', hprev, hreading⟩ := previewedResponse_continue
        (c := { d.takeHead n with head := i.text.take (i.text.length - 2) })
        ⟨hq'.writer, hq'.pending, hq'.accepted, hq'.line, hq'.short⟩ hd.entities hall
      dsimp only
      rw [hres]
      dsimp only
      rw [i.scanStatus]
      dsimp only
      rw [hprev]
      exact .inl (.inr (.inr ⟨hreading, fun hdone => by cases hdone⟩))
    | none =>
      rw [hi] at hlen
      obtain ⟨heof, h200⟩ : d.eofSent = true ∧ r.first.status = 200 := by
        rcases hd.answered with hsome | hfinal
        · rw [hi] at hsome
          cases hsome
        · exact hfinal
      have hstream : d.head ++ d.unread =
          r.head ++ (r.block ++ (enc r.chunks ++ r.last.enc ++ rest)) := by
        have := hd.stream
        rw [hi] at this
        rw [this]
        simp [interimText, Response.bytes]
      rcases parseIcapHeader_spec r.endsHead hstream hlen with
        ⟨n, hres, hmore⟩ | ⟨n, hres, hall⟩
      · dsimp only
        rw [hres]
        exact .inr ⟨by simp, hi ▸ hd.takeHead (by rw [hi]; exact hmore)⟩
      have hq' := hd.quiet.takeHead n
      have htake : r.head.take (r.head.length - 2) = linesText r.lines := take_headText r.lines
      have hscan : Client.scanStatus (linesText r.lines) = some 200 := by
        rw [← h200]
        exact (r.read_head (c := { d with head := linesText r.lines }) rfl hd.entities).1
      obtain ⟨c', hprev, hst, hreading⟩ := previewedResponse_final hcs
        (c := { d.takeHead n with head := linesText r.lines })
        ⟨hq'.writer, hq'.pending, hq'.accepted, hq'.line, hq'.short⟩ hd.entities rfl hall heof
      dsimp only
      rw [hres, htake]
      dsimp only
      rw [hscan]
      dsimp only
      rw [hprev]
      dsimp only
      rw [if_neg hst]
      exact .inl (sendAndGetData_on ht hcs hreading call)

end Answer

/-! ## Runs -/

/-- A request object before its first call: nothing of the response has been read. -/
structure Client.Idle (c : Client) : Prop extends c.Ready where
  noHead : c.head = []
  accepted : c.accepted = []
  pending : c.req.rd.writeToModulePending = 0
  line : c.req.rd.currentChunkLen = c.req.rd.chunkBytesRead
  short : c.req.rd.pstrblockRead.length ≤ bufSize

/-- How the server answers: without a preview the response comes at once; to a preview it comes
after `100 Continue`, or at once with the status 200 when the end of the body was in the
preview. -/
def Client.Answered (args : FilterArgs) (c : Client) (r : Response) (interim : Option Interim) :
    Prop :=
  ∀ p, prepareHeaders args c = some p →
    (p.req.preview < 0 ∧ interim = none) ∨
    (0 ≤ p.req.preview ∧
      (interim.isSome = true ∨ (p.eofSent = true ∧ r.first.status = 200)))

/-- The phases of an exchange that begins with `c₀`. -/
inductive Exchange (args : FilterArgs) (c₀ : Client) (r : Response) (rest : List UInt8)
    (interim : Option Interim) (c : Client) : Prop where
  | start (h : c = c₀)
  | sending (p : Client) (hp : prepareHeaders args c₀ = some p) (hk : Keeps p c)
      (hs : c.status.beforeAnswer) (hret : c.ret ≠ .done)
  | waiting (h : Waiting r rest interim c) (hret : c.ret ≠ .done)
  | reading (h : Reading r rest c) (hret : c.ret = .done → c.status = .endOfResponse)
  | failed (h : c.ret = .error ∨ c.ret = .fault)

section Run

variable {args : FilterArgs} {c₀ p c : Client} {r : Response} {rest : List UInt8}
  {interim : Option Interim}

theorem Exchange.of_answerOn (args : FilterArgs) (c₀ : Client) {res : FilterRet × Client}
    (h : AnswerOn r rest interim res) :
    Exchange args c₀ r rest interim { res.2 with ret := res.1 } := by
  have hsame : SameRead res.2 { res.2 with ret := res.1 } :=
    ⟨rfl, rfl, rfl, rfl, rfl, rfl, rfl, rfl, rfl, id⟩
  rcases h with (herr | hfault | ⟨hreading, hdone⟩) | ⟨hret, hw⟩
  · exact .failed (.inl herr)
  · exact .failed (.inr hfault)
  · exact .reading (hreading.congr hsame) hdone
  · exact .waiting ⟨hw.status, hw.quiet.congr hsame, hw.entities, hw.stream, hw.length, hw.preview,
      hw.answered⟩ hret

theorem headersSent_on (hi : c₀.Idle) (hw : Writer.Whole c₀.writer)
    (hin : c₀.unread = interimText interim ++ (r.bytes ++ rest)) (ht : r.last.Fits)
    (hcs : ∀ chunk ∈ r.chunks, ChunkFits chunk) (hans : c₀.Answered args r interim)
    (hp : prepareHeaders args c₀ = some p) (hk : Keeps p c) (call : ClientCall) :
    AnswerOn r rest interim (c.headersSent call) := by
  have hside : c.readSide = c₀.readSide := hk.side.trans (prepareHeaders_side hi.packed hp).1
  have hrel : c.req.EntitiesOnly c.req.releaseEntities :=
    (putToTrash_entitiesOnly c.req.entities c.req).trans rfl
  have hrd : c.req.releaseEntities.rd = c₀.req.rd := by
    rw [hrel]
    exact congrArg ReadSide.rd hside
  have hpv : c.req.releaseEntities.preview = p.req.preview := by
    rw [hrel]
    exact hk.preview
  have hhead : c.head = [] := (congrArg ReadSide.head hside).trans hi.noHead
  have hwriter : c.writer = c₀.writer := congrArg ReadSide.writer hside
  have hacc : c.accepted = c₀.accepted := congrArg ReadSide.accepted hside
  have hinput : c.input = c₀.input := congrArg ReadSide.input hside
  -- the receiving side of the object, whatever its status
  have hquiet : ∀ st, ({ c with req := c.req.releaseEntities, status := st } : Client).Quiet :=
    fun st =>
      { writer := by dsimp only; rw [hwriter]; exact hw
        pending := by dsimp only; rw [hrd]; exact hi.pending
        accepted := hacc.trans hi.accepted
        line := by dsimp only; rw [hrd]; exact hi.line
        short := by dsimp only; rw [hrd]; exact hi.short }
  have hunread : c.req.releaseEntities.rd.pstrblockRead ++ c.input =
      interimText interim ++ (r.bytes ++ rest) := by
    rw [hrd, hinput]
    exact hin
  have hstream : c.head ++ (c.req.releaseEntities.rd.pstrblockRead ++ c.input) =
      interimText interim ++ (r.bytes ++ rest) := by
    rw [hhead]
    exact hunread
  unfold Client.headersSent
  dsimp only
  rw [hpv]
  rcases hans p hp with ⟨hneg, hnone⟩ | ⟨hpos, hanswer⟩
  · rw [if_neg (by omega)]
    rw [hnone] at hstream
    refine .inl (sendAndGetData_on ht hcs (.head rfl (hquiet _) rfl hstream ?_) call)
    rw [hhead]
    exact r.endsHead.four_le
  rw [if_pos hpos]
  refine .inr ⟨by simp, rfl, hquiet _, rfl, hstream, ?_, ?_, ?_⟩
  · rw [hhead]
    cases interim with
    | none => exact r.endsHead.four_le
    | some i => exact i.endsHead.four_le
  · rw [hpv]
    exact hpos
  · rw [hk.eofSent]
    exact hanswer

/-- **A call keeps the phases of an exchange.** -/
theorem step_exchange (hi : c₀.Idle) (hw : Writer.Whole c₀.writer)
    (hin : c₀.unread = interimText interim ++ (r.bytes ++ rest)) (ht : r.last.Fits)
    (hcs : ∀ chunk ∈ r.chunks, ChunkFits chunk) (hans : c₀.Answered args r interim)
    (c : Client) (call : ClientCall) (h : Exchange args c₀ r rest interim c) :
    Exchange args c₀ r rest interim (c.step args call) := by
  have hsend : ∀ {p d : Client}, prepareHeaders args c₀ = some p → Keeps p d →
      d.status.beforeAnswer → Exchange args c₀ r rest interim
        { (d.sendHeaders call).2 with ret := (d.sendHeaders call).1 } := by
    intro p d hp hk hs
    obtain ⟨hkeeps, hmore⟩ := sendRequestHeaders_keeps hs call.headWrite
    unfold Client.sendHeaders
    rcases hres : d.sendRequestHeaders d.eofSent call.headWrite with ⟨ret, e⟩
    rw [hres] at hkeeps hmore
    have hke := hk.trans hkeeps
    cases ret with
    | ok =>
      exact .of_answerOn _ _ (headersSent_on hi hw hin ht hcs hans hp
        (c := { e with status := .sendHeadersFinished }) { hke with } call)
    | needsMore =>
      exact .sending p hp { hke with } (hmore rfl) (by simp)
    | error | noContent | fault => exact .failed (.inl rfl)
  unfold Client.step
  cases hret : c.ret with
  | done | error | fault => exact h
  | wants a b d e =>
    unfold Client.icapfilterNonblocking
    cases h with
    | start hc =>
      rw [hc, hi.status]
      cases hp : prepareHeaders args c₀ with
      | none => exact .failed (.inl rfl)
      | some p =>
        exact hsend hp ⟨rfl, rfl, rfl⟩ (.inl (prepareHeaders_side hi.packed hp).2)
    | sending p hp hk hs _ =>
      have hnext := hsend hp hk hs
      rcases hs with hst | hst
      · rw [hst]
        exact hnext
      · cases hcs : c.status <;> rw [hcs] at hst <;> first | exact hnext | cases hst
    | waiting hwait _ =>
      rw [hwait.status]
      rw [if_pos hwait.preview]
      exact .of_answerOn _ _ (readPreviewResponse_on ht hcs hwait call)
    | reading hreading _ =>
      have hnext := Exchange.of_answerOn args c₀
        (.inl (sendAndGetData_on ht hcs hreading call) : AnswerOn r rest interim _)
      cases hreading with
      | head hs _ _ _ _ | headers hs _ _ _ _ | body hs _ _ _ => rw [hs]; exact hnext
      | ended hs _ =>
        rcases hs with hs | hs
        all_goals rw [hs]; exact hnext
    | failed hfail =>
      rw [hret] at hfail
      rcases hfail with hfail | hfail <;> cases hfail

end Run

def sampleResponse : Response where
  first := ⟨bytes "200", bytes " OK", by decide, by decide, by decide⟩
  before := []
  after := [bytes "ISTag: 1"]
  name := bytes "Encapsulated"
  header := some (.reqHdr, bytes "POST / HTTP/1.1\r\n\r\n")
  bodyType := .reqBody
  chunks := [Chunk.ofData (bytes "hello") (by decide), Chunk.ofData (bytes "!") (by decide)]
  last := .plain
  final := by decide
  before_lines := by simp
  after_lines := by
    rintro l hl
    obtain rfl := List.mem_singleton.mp hl
    exact ⟨by decide, by decide, by decide +kernel⟩
  name_spelled := by decide
  header_block := by
    rintro type block ⟨rfl⟩
    exact ⟨.inl rfl, by decide, by decide⟩
  body_type := .inl rfl

def sampleContinue : Interim where
  first := ⟨bytes "100", bytes " Continue", by decide, by decide, by decide⟩
  lines := []
  isContinue := by decide
  plain := by simp

/-- The request of `client_sends_sample` with an answer and a writer. -/
def sampleExchange (interim : Option Interim) (writer : Writer) : Client :=
  { sampleRequest [.data (bytes "ab"), .data (bytes "c")] with
    input := interimText interim ++ (sampleResponse.bytes ++ [])
    writer := writer }

/-- The rest of the request is written and the response is read in pieces. -/
def sampleReads : List ClientCall :=
  sampleCalls.take 7 ++
    [{ ioWrite := true, ioRead := true, dataWrite := some 100, dataRead := some 50 },
     { ioWrite := true, ioRead := true, dataWrite := some 100, dataRead := some 50 },
     { ioRead := true, dataRead := some 20 }, { ioRead := true, dataRead := some 100 }]

end CIcap
