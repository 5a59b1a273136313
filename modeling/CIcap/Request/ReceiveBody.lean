import CIcap.Request.Receive

/-! # The receiving side in the body

The preview and `get_send_body`: each read from the connection, each call of the chunk parser and
each call of the service carries `Received` on. `step_received` puts the steps together and
`run_received` follows a whole run.
-/

namespace CIcap

open CText Chunked List

variable {σ : Type} (cfg : Config σ)

section Body

variable {P Q : Prop} {req₀ : Req σ} {m : Message} {next : List UInt8} {c : Run σ}

/-! ## Reading -/

variable {p : Pos} {c' : Run σ} {x : Intake} {eof : Bool} {l : Gsb}

theorem Reader.At.congr {r r' : Reader} (h : r.At p)
    (hlen : r'.currentChunkLen = r.currentChunkLen) (hread : r'.chunkBytesRead = r.chunkBytesRead) :
    r'.At p := by
  cases p <;> simp only [Reader.At, hlen, hread] at h ⊢ <;> exact h

/-- A read moves bytes from the connection to the read buffer. -/
theorem netDataRead_eq {t : Tick} (h : c.netDataRead t = (true, c')) :
    ∃ got rest, c.net.input = got ++ rest ∧ c' = { c with
      req := { c.req with rd := { c.req.rd with
        pstrblockRead := c.req.rd.pstrblockRead ++ got
        bytesIn := c.req.rd.bytesIn + got.length } }
      net := { c.net with input := rest } } := by
  unfold Run.netDataRead at h
  split_ifs at h with hfull
  · cases h
  unfold Run.readNonblock at h
  cases hk : t.read with
  | none =>
    rw [hk] at h
    cases h
  | some k =>
    rw [hk] at h
    dsimp only [Option.map_some] at h
    unfold CIcap.netDataRead at h
    rw [if_neg hfull] at h
    simp only [Prod.mk.injEq, true_and] at h
    exact ⟨_, _, (take_append_drop (min k (netReadRoom c.req.rd)) _).symm, h.symm⟩

/-! ## The preview -/

theorem previewReadStep_received (hpc : c.pc = .previewRead) (h : Received cfg P Q req₀ m next c)
    (t : Tick) : Received cfg P Q req₀ m next (c.previewReadStep cfg t) := by
  unfold Received at h
  rw [hpc] at h
  obtain ⟨hann, cs, more, p, hb, hin⟩ := h
  unfold Run.previewReadStep
  split
  · exact received_reject cfg t _
  split
  · exact received_reject cfg t _
  · rename_i c' hread
    obtain ⟨got, rest, hgot, rfl⟩ := netDataRead_eq hread
    have hstream := hin.stream
    refine ⟨hann.congr rfl rfl rfl, cs, more, p, hb, hin.at_pos.congr rfl rfl, hin.inside, ?_,
      hin.chunks, hin.pending, hin.eof, hin.data, hin.accepted, hin.whole, hin.withheld⟩
    show (c.req.rd.pstrblockRead ++ got) ++ rest = _
    rw [append_assoc, ← hgot]
    exact hstream

/-- The end of a preview: what the parser has left in the read buffer is dropped. -/
theorem Intake.InPreview.ends {cs : List Chunk} {more : Option (List Chunk)}
    {w : List UInt8} {r rd : Reader} (hin : x.InPreview cs more next p) (hr : r.eofReceived = false)
    (hspec : CallSpec (RequestBody.previewEnd more) (RequestBody.behindPreview next more) x.input
      r p .eof w rd .finished) (hkeep : P → rd.pstrblockRead = []) :
    Intake.Previewed P (.preview cs more) next { x with
        rd := { rd with writeToModulePending := 0, pstrblockRead := [], i206UseOriginalBody := 0 }
        preview := x.preview ++ w } rd.eofReceived := by
  obtain ⟨hzero, hzero'⟩ := hspec.moves.at_pos
  have hdata : x.preview ++ w = body cs := by
    have hleft := hspec.moves.left
    have hp := hin.data
    rw [hleft, Pos.left, append_nil] at hp
    exact hp
  have hstream := hspec.moves.stream
  have hmark := (hspec.mark rfl).1
  refine ⟨hzero.trans hzero'.symm, rfl, hin.accepted, hin.whole, fun heof => ?_, fun heof => ?_⟩
  · cases more with
    | none =>
      refine ⟨?_, fun hP => .inl ⟨?_, hin.withheld⟩⟩
      · show x.preview ++ w = body cs ++ body []
        rw [hdata, body_nil, append_nil]
      · rw [hkeep hP] at hstream
        exact hstream
    | some cs' =>
      rw [hmark] at heof
      cases hr.symm.trans heof
  · cases more with
    | none =>
      rw [hmark] at heof
      cases heof
    | some cs' => exact ⟨cs, cs', rfl, hdata, (append_eq_nil_iff.mp hstream).2, hin.withheld, heof⟩

theorem previewParseStep_received (hpc : c.pc = .previewParse) (h : Received cfg P Q req₀ m next c)
    (hok : Reads P Q c) (t : Tick) : Received cfg P Q req₀ m next (c.previewParseStep cfg t) := by
  unfold Received at h
  rw [hpc] at h
  obtain ⟨hann, cs, more, p, hb, hin⟩ := h
  obtain ⟨ret, w, rd, p', hcall, hpend, hspec⟩ :=
    parseChunkData_spec (RequestBody.previewEnd_fits more) (r := c.req.rd)
      (hin.at_pos.congr rfl rfl) hin.inside hin.chunks hin.stream hin.pending
  have hkeep := fun hP => hok.preview hP hpc w rd
  unfold Run.previewParseStep
  rw [hcall] at hkeep ⊢
  dsimp only
  rw [hpend, take_length]
  have hgo : ret ≠ .eof → ∃ cs more p, m.body = .preview cs more ∧ Intake.InPreview cs more next
      { c.intake with
        rd := { rd with writeToModulePending := 0, i206UseOriginalBody := 0 }
        preview := c.req.previewData.data ++ w.getD [] } p := by
    intro hret
    have hp' : p' ≠ .finished := fun hp => hret (hspec.eof_iff.mpr hp)
    refine ⟨cs, more, p', hb, hspec.moves.at_pos.congr rfl rfl, hp', hspec.moves.stream,
      fun k hk => hin.chunks k (hspec.moves.chunks k hk), rfl, (hspec.no_mark hp').1.trans hin.eof,
      ?_, hin.accepted, hin.whole, hin.withheld⟩
    rw [append_assoc, ← hspec.moves.left]
    exact hin.data
  cases ret with
  | error => exact received_reject cfg t _
  | wild => trivial
  | needsMore | ok =>
    dsimp only
    split
    · exact received_reject cfg t _
    · exact ⟨hann.congr rfl rfl rfl, hgo (by simp)⟩
  | eof =>
    dsimp only
    split
    · exact received_reject cfg t _
    · obtain rfl : p' = .finished := hspec.eof_iff.mp rfl
      have hends := hin.ends (P := P) (r := c.req.rd) hin.eof hspec fun hP => hkeep hP rfl
      refine ⟨hann.congr rfl rfl rfl, ?_⟩
      rw [hb]
      exact hends

/-! ## The answer to the preview -/

theorem Req.ApiOnly.keeps {r r' : Req σ} (h : Req.ApiOnly r r') :
    r'.hasbody = r.hasbody ∧ r'.allow204 = r.allow204 ∧ r'.allow206 = r.allow206 := by
  rw [h]
  exact ⟨rfl, rfl, rfl⟩

theorem callPreview_received (c : Run σ) (data : Option (List UInt8)) :
    (c.callPreview data).2.intake = c.intake ∧
      (∀ {b : RequestBody}, b.Announced c.req → b.Announced (c.callPreview data).2.req) ∧
      (c.callPreview data).2.req.hasbody = c.req.hasbody ∧
      (c.callPreview data).2.req.allow204 = c.req.allow204 ∧
      (c.callPreview data).2.req.allow206 = c.req.allow206 := by
  unfold Run.callPreview
  split
  · exact ⟨rfl, id, rfl, rfl, rfl⟩
  · rename_i handler _
    have honly := (apis_effect c.req (handler c.svc c.req.view data).2.2).only
    exact ⟨intake_of_api honly _, fun h => h.api honly, honly.keeps⟩

theorem afterPreview_over (h : c.intake.Done P m.body next) (hwhole : c.intake.whole = false)
    (t : Tick) (hcode : c.req.returnCode = some .ec204 ∨ c.req.returnCode = some .ec200 ∨
      c.req.returnCode = some .ec206) :
    Received cfg P Q req₀ m next (c.afterPreview cfg t false) := by
  unfold Run.afterPreview
  rw [if_neg (by simp)]
  dsimp only
  rcases hcode with hcode | hcode | hcode <;> rw [hcode]
  · exact ⟨h, fun _ hw => by cases hwhole.symm.trans hw⟩
  all_goals exact h

theorem afterPreview_whole (h : c.intake.Done P m.body next) (t : Tick)
    (hcode : eof = true ∨ c.req.returnCode = some .ec200) :
    Received cfg P Q req₀ m next (c.afterPreview cfg t eof) := by
  unfold Run.afterPreview
  cases eof with
  | true => exact h
  | false =>
    rw [if_neg (by simp)]
    dsimp only
    rw [hcode.resolve_left (by simp)]
    exact h

/-- `get_send_body` begins. -/
theorem enterGetSendBody_received {parseOnly : Bool}
    (h : c.intake.In m.body next parseOnly [] p) :
    Received cfg P Q req₀ m next (c.enterGetSendBody parseOnly) :=
  ⟨p, h⟩

theorem afterPreview_body (h : c.intake.In m.body next false [] p)
    (hcode : c.req.returnCode = some .ec100) (hbody : c.req.hasbody = true) (t : Tick) :
    Received cfg P Q req₀ m next (c.afterPreview cfg t false) := by
  unfold Run.afterPreview
  rw [if_neg (by simp)]
  dsimp only
  rw [hcode]
  dsimp only
  rw [if_pos ⟨hbody, rfl⟩]
  split
  · exact enterGetSendBody_received cfg (c := c.setCode .ec200) h
  · trivial

theorem respond_received (c : Run σ) (t : Tick) (ec : Ec) :
    (c.respond cfg t ec).2.intake = c.intake ∧ (c.respond cfg t ec).2.req.hasbody = c.req.hasbody ∧
      (c.respond cfg t ec).2.req.returnCode = some
        (if ec = .ec204 ∧ cfg.allow204As200okZeroEncaps then .ec200 else ec) :=
  ⟨rfl, rfl, rfl⟩

/-- With the preview the receiving is over, unless the service asks for more. -/
theorem Intake.Previewed.done {b : RequestBody}
    (h : x.Previewed P b next eof) : x.Done P b next := by
  refine ⟨fun hP => ?_, fun hw => by cases h.whole.symm.trans hw⟩
  cases eof with
  | true => exact (h.all rfl).2 hP
  | false =>
    obtain ⟨cs, more, rfl, -, hs, hheld, -⟩ := h.part rfl
    refine .inr ⟨hs, hheld, ?_⟩
    rw [hheld]
    simp [RequestBody.later, LastChunk.enc, LastChunk.line]

theorem Intake.Previewed.done_whole {b : RequestBody} (h : x.Previewed P b next true) :
    ({ x with whole := true } : Intake).Done P b next := by
  refine ⟨(h.all rfl).2, fun _ => ⟨[], ?_, h.pending⟩⟩
  rw [h.accepted, append_nil, append_nil]
  exact (h.all rfl).1

section

variable (hwf : m.WellFormed cfg req₀)
include hwf

/-- What follows a preview is read when the client has been asked for it, whether or not the
request for it could be written. -/
theorem sendContinue_in (h : c.intake.Previewed P m.body next false)
    (t : Tick) : ∃ p, (c.wantsWholeBody.sendContinue t).intake.In m.body next false [] p := by
  obtain ⟨cs, more, hb, hprev, hs, hheld, heof⟩ := h.part rfl
  have hin : ∀ x : Intake, x.rd = c.intake.rd → x.preview = c.intake.preview →
      x.accepted = c.intake.accepted → x.input ++ x.withheld = c.intake.input ++ c.intake.withheld →
      (x.withheld = [] ∨ x.withheld = c.intake.withheld) → x.In m.body next false [] (.line more) := by
    intro x hrd hpre hacc hbytes hcases
    have hlater : c.intake.withheld = enc more ++ LastChunk.plain.enc ++ next := by
      rw [hheld, hb]
      rfl
    refine ⟨?_, ?_, ?_, fun k hk => hwf.fits k ?_, ?_, ?_, ?_, nofun⟩
    · rw [hrd]
      exact h.chunk
    · rw [hrd, hbytes, ← append_assoc, hs, hlater]
      rfl
    · refine hcases.imp id fun hw => ⟨enc more ++ LastChunk.plain.enc, ?_, hw.trans hlater⟩
      simp [LastChunk.enc, LastChunk.line]
    · rw [hb]
      exact mem_append_right _ hk
    · rw [hrd]
      exact h.pending
    · rw [hpre, hacc, hprev, h.accepted, append_nil, append_nil, hb]
      rfl
    · rw [hrd, heof]
      simp
  refine ⟨.line more, ?_⟩
  unfold Run.sendContinue Run.write
  dsimp only
  split
  · exact hin _ rfl rfl rfl (append_nil _) (.inl rfl)
  · exact hin _ rfl rfl rfl rfl (.inr rfl)

theorem previewStep_received (hpc : c.pc = .preview eof)
    (h : Received cfg P Q req₀ m next c) (t : Tick) :
    Received cfg P Q req₀ m next (c.previewStep cfg t eof) := by
  unfold Received at h
  rw [hpc] at h
  obtain ⟨hann, hprev⟩ := h
  obtain ⟨hint, hann', -, -, -⟩ := callPreview_received c (some c.req.previewData.data)
  replace hann' := hann' hann
  rw [← hint] at hprev
  unfold Run.previewStep
  rcases hcall : c.callPreview (some c.req.previewData.data) with ⟨answer, c'⟩
  rw [hcall] at hprev hann'
  cases answer with
  | done | error => exact received_reject cfg t _
  | allow204 =>
    dsimp only
    split
    · trivial
    · rename_i c'' hres
      obtain ⟨hint', -, hcode⟩ := respond_received cfg c' t .ec204
      rw [hres] at hint' hcode
      refine afterPreview_over cfg (by rw [hint']; exact hprev.done) (by rw [hint']; exact hprev.whole)
        t ?_
      rw [hcode]
      split_ifs
      · exact .inr (.inl rfl)
      · exact .inl rfl
  | allow206 =>
    dsimp only
    split
    · exact afterPreview_over cfg (c := c'.setCode .ec206) hprev.done hprev.whole t (.inr (.inr rfl))
    · exact received_reject cfg t _
  | «continue» =>
    cases eof with
    | true =>
      exact afterPreview_whole cfg (c := c'.wantsWholeBody) hprev.done_whole t (.inl rfl)
    | false =>
      obtain ⟨p, hin⟩ := sendContinue_in cfg hwf hprev t
      obtain ⟨cs, more, hb, -⟩ := hprev.part rfl
      have hbody : c'.req.hasbody = true := hann'.hasbody.mpr (by rw [hb]; simp)
      have hkeep : (c'.wantsWholeBody.sendContinue t).req.hasbody = c'.req.hasbody ∧
          (c'.wantsWholeBody.sendContinue t).req.returnCode = some .ec100 := by
        unfold Run.sendContinue Run.write
        dsimp only
        split <;> exact ⟨rfl, rfl⟩
      exact afterPreview_body cfg hin hkeep.2 (hkeep.1.trans hbody) t

theorem fakePreview_in (hann : m.body.Announced c.req)
    (hfresh : c.intake.Fresh m.body next) (hheld : c.net.withheld = [])
    (hs : c.req.rd.pstrblockRead ++ c.net.input = m.body.first next)
    (hno : ∀ cs more, m.body ≠ .preview cs more) (hbody : c.req.hasbody = true) :
    ∃ p, ∀ drain, c.intake.In m.body next drain [] p := by
  cases hb : m.body with
  | absent => exact absurd hb (hann.hasbody.mp hbody)
  | preview cs more => exact absurd hb (hno cs more)
  | whole cs =>
    rw [hb] at hs
    refine ⟨.line cs, fun drain => ⟨hfresh.chunk, ?_, .inl hheld, fun k hk => hwf.fits k ?_,
      hfresh.pending, ?_, ?_, fun _ => hfresh.whole⟩⟩
    · show c.req.rd.pstrblockRead ++ (c.net.input ++ c.net.withheld) = _
      rw [hheld, append_nil]
      exact hs
    · rw [hb]
      exact hk
    · rw [hfresh.preview, hfresh.accepted]
      rfl
    · rw [hfresh.eof]
      simp

theorem fakePreviewStep_received (hpc : c.pc = .fakePreview)
    (h : Received cfg P Q req₀ m next c) (hok : Reads P Q c) (t : Tick) :
    Received cfg P Q req₀ m next (c.fakePreviewStep cfg t) := by
  unfold Received at h
  rw [hpc] at h
  obtain ⟨hann, hfresh, hheld, hs, hno⟩ := h
  have h206 := fun hP => hok.body hP hpc
  obtain ⟨hint, -, hbody, hallow, hallow'⟩ := callPreview_received c none
  -- with a body `get_send_body` can begin, without one the receiving is over
  have hin := fakePreview_in cfg hwf hann hfresh hheld hs hno
  have hdone : c.req.hasbody = false → c.intake.Settled m.body next ∧ m.body.data = [] := by
    intro hfalse
    have habsent : m.body = .absent := by
      by_contra hne
      rw [hann.hasbody.mpr hne] at hfalse
      cases hfalse
    refine ⟨AtBody.settled ⟨hann, hfresh, hs⟩ habsent, ?_⟩
    rw [habsent]
    rfl
  have hpend := hfresh.pending
  have hprev := hfresh.preview
  have hacc := hfresh.accepted
  have hwhole := hfresh.whole
  rw [← hint] at hin hdone hpend hprev hacc hwhole
  rw [← hbody] at hin hdone h206
  rw [← hallow, ← hallow'] at h206
  unfold Run.fakePreviewStep
  rcases hcall : c.callPreview none with ⟨answer, c'⟩
  rw [hcall] at hin hdone h206 hpend hprev hacc hwhole
  have hover : c'.req.hasbody = false → c'.intake.Done P m.body next := fun hfalse =>
    ⟨fun _ => (hdone hfalse).1, fun hw => by cases hwhole.symm.trans hw⟩
  cases answer with
  | done | error => exact received_reject cfg t _
  | «continue» =>
    cases hb : c'.req.hasbody with
    | true =>
      obtain ⟨p, hp⟩ := hin hb
      refine afterPreview_body cfg (c := (c'.wantsWholeBody).setCode _) (p := p)
        ⟨(hp false).at_pos, (hp false).stream, (hp false).held, (hp false).chunks,
          (hp false).pending, (hp false).data, (hp false).eof, nofun⟩ ?_ hb t
      show some (if c'.req.hasbody = true then Ec.ec100 else .ec200) = _
      rw [if_pos hb]
    | false =>
      refine afterPreview_whole cfg (c := (c'.wantsWholeBody).setCode _)
        ⟨fun _ => (hdone hb).1, fun _ => ⟨[], ?_, hpend⟩⟩ t (.inr ?_)
      · show c'.intake.preview ++ c'.intake.accepted ++ [] = _
        rw [hprev, hacc, (hdone hb).2]
        rfl
      · show some (if c'.req.hasbody = true then Ec.ec100 else .ec200) = _
        rw [if_neg (by rw [hb]; simp)]
  | allow206 =>
    dsimp only
    split_ifs with hallowed
    · refine afterPreview_over cfg (c := c'.setCode .ec206) ⟨fun hP => ?_, fun hw => ?_⟩ hwhole t
        (.inr (.inr rfl))
      · cases hb : c'.req.hasbody with
        | true => exact absurd hallowed (h206 hP hb rfl)
        | false => exact (hdone hb).1
      · cases hwhole.symm.trans hw
    · exact received_reject cfg t _
  | allow204 =>
    dsimp only
    split_ifs with hallowed hb hfake
    · -- the body is read and not used
      split
      · trivial
      rename_i c'' hres
      obtain ⟨hint', hb', -⟩ := respond_received cfg c' t .ec204
      rw [hres] at hint' hb'
      split_ifs with hb''
      · obtain ⟨p, hp⟩ := hin (hb'.symm.trans hb'')
        rw [← hint'] at hp
        exact enterGetSendBody_received cfg (hp true)
      · have hf : c'.req.hasbody = false := by
          rw [← hb']
          simpa using hb''
        have hd := hover hf
        rw [← hint'] at hd hwhole
        exact afterPreview_over cfg (c := c''.setCode .ec204) hd hwhole t (.inl rfl)
    · exact afterPreview_over cfg (c := c'.setCode .ec200) (hover (by simpa using hb)) hwhole t
        (.inr (.inl rfl))
    · -- the body is echoed
      have hb' : c'.req.hasbody = true := by simpa using hb
      obtain ⟨p, hp⟩ := hin hb'
      exact afterPreview_body cfg (c := { c'.setCode .ec100 with req :=
        { (c'.setCode .ec100).req with echoBody := some (RingBuf.new 32768) } }) (p := p)
        (hp false) rfl hb' t
    · exact received_reject cfg t _

end

/-! ## `get_send_body` -/

variable {b : RequestBody} {drain : Bool} {wdata : List UInt8} {p : Pos}

theorem update_intake (c : Run σ) :
    ({ c with req := (updateSendStatus cfg c.req).2 } : Run σ).intake = c.intake := by
  unfold Run.intake
  rw [updateSendStatus_only cfg c.req]

theorem sendCurrentBlock_intake (c : Run σ) (t : Tick) :
    (c.sendCurrentBlock t).2.intake = c.intake := by
  unfold Run.sendCurrentBlock
  split
  · rfl
  · split <;> rfl

theorem formatBody_intake (c : Run σ) (atEof : Bool) :
    ({ c with req := formatBody c.req atEof } : Run σ).intake = c.intake := by
  unfold formatBody formatBodyChunk
  split_ifs <;> rfl

/-- Bytes that have been read are the next ones of the stream. -/
theorem Intake.In.read {t : Tick} (h : c.intake.In b next drain wdata p)
    (hread : c.netDataRead t = (true, c')) : c'.intake.In b next drain wdata p := by
  obtain ⟨got, rest, hgot, rfl⟩ := netDataRead_eq hread
  refine ⟨h.at_pos.congr rfl rfl, ?_, h.held, h.chunks, h.pending, h.data, h.eof, h.whole⟩
  have hstream : c.req.rd.pstrblockRead ++ (c.net.input ++ c.net.withheld) = _ := h.stream
  show (c.req.rd.pstrblockRead ++ got) ++ (rest ++ c.net.withheld) = _
  rw [← hstream, hgot]
  simp only [append_assoc]

theorem gsbNet_in (h : c.intake.In b next drain wdata p) (t : Tick) (read write : Bool)
    (hnet : c.gsbNet cfg t read write = (true, c')) : c'.intake.In b next drain wdata p := by
  unfold Run.gsbNet at hnet
  rcases hr : (if read then c.netDataRead t else (true, c)) with ⟨ok, c₁⟩
  rw [hr] at hnet
  dsimp only at hnet
  have h₁ : ok = true → c₁.intake.In b next drain wdata p := by
    rintro rfl
    split_ifs at hr
    · exact h.read hr
    · cases hr
      exact h
  by_cases hw : ok = true ∧ write = true
  · rw [if_pos hw] at hnet
    have hc' := congrArg Prod.snd hnet
    dsimp only at hc'
    rw [← hc', sendCurrentBlock_intake]
    split
    · rw [update_intake]
      exact h₁ hw.1
    · exact h₁ hw.1
  · rw [if_neg hw] at hnet
    cases hnet
    exact h₁ rfl

/-- At the end of the stream the receiving is over. -/
theorem Intake.In.done (h : x.In b next drain wdata p) (heof : x.rd.eofReceived = true) :
    x.Done P b next := by
  obtain rfl := h.eof.mp heof
  have hstream := h.stream
  rw [Pos.bytes, nil_append] at hstream
  have hheld : x.withheld = [] := by
    rcases h.held with hnil | ⟨w, hw, heq⟩
    · exact hnil
    · rw [heq] at hstream
      have hlen := congrArg length hstream
      have hpos := length_pos_iff.mpr hw
      simp only [length_append] at hlen
      omega
  rw [hheld, append_nil] at hstream
  refine ⟨fun _ => .inl ⟨hstream, hheld⟩, fun _ => ⟨wdata, ?_, h.pending⟩⟩
  have hdata := h.data
  rwa [Pos.left, append_nil] at hdata

theorem failGetSendBody_received (c : Run σ) (parseOnly : Bool) :
    Received cfg P Q req₀ m next (c.failGetSendBody parseOnly) := by
  unfold Run.failGetSendBody
  split <;> trivial

theorem leaveGetSendBody_received (h : c.intake.In m.body next drain wdata p) (t : Tick) :
    Received cfg P Q req₀ m next (c.leaveGetSendBody cfg t drain) := by
  unfold Run.leaveGetSendBody
  split_ifs with heof hparse
  · exact afterPreview_over cfg (c := c.setCode .ec204) (h.done heof) (h.whole hparse) t (.inl rfl)
  · exact h.done heof
  · exact failGetSendBody_received cfg c drain

section

variable (h : c.intake.In m.body next l.parseOnly (l.wchunkdata.getD []) p)
include h

theorem gsbUpdate_received : Received cfg P Q req₀ m next (c.gsbUpdate cfg l) := by
  unfold Run.gsbUpdate
  split_ifs with hupdate
  · dsimp only
    split
    · exact failGetSendBody_received cfg _ _
    · refine ⟨p, ?_⟩
      have hint := update_intake cfg c
      rw [← hint] at h
      exact h
  · exact ⟨p, h⟩

theorem gsbTop_received (t : Tick) : Received cfg P Q req₀ m next (c.gsbTop cfg t l) := by
  unfold Run.gsbTop
  split
  · split
    · exact leaveGetSendBody_received cfg h t
    · split
      · exact failGetSendBody_received cfg _ _
      · rename_i hnet
        exact gsbUpdate_received cfg (gsbNet_in cfg h t _ _ hnet)
  · exact gsbUpdate_received cfg h

end

/-- The parser is called in the middle of the stream and hands out the next data. -/
theorem gsbParse_in (h : c.intake.In b next drain (l.wchunkdata.getD []) p)
    (honce : c.req.rd.eofReceived = true → c.req.rd.writeToModulePending = 0 →
      c.req.rd.pstrblockRead = []) :
    ∃ p', (c.gsbParse l).2.1.intake.In b next drain ((c.gsbParse l).2.2.wchunkdata.getD []) p' := by
  unfold Run.gsbParse
  split_ifs with hcall
  · obtain ⟨hne, hpend⟩ := hcall
    have hp : p ≠ .finished := fun hp => hne (honce (h.eof.mpr hp) hpend)
    obtain ⟨ret, w, rd, p', hres, hpend', hspec⟩ :=
      parseChunkData_spec (t := .plain) trivial (r := c.req.rd) (h.at_pos.congr rfl rfl) hp h.chunks
        h.stream hpend
    have hw : l.wchunkdata.getD [] = [] := by
      have hlen : c.req.rd.writeToModulePending = (l.wchunkdata.getD []).length := h.pending
      rw [hpend] at hlen
      exact length_eq_zero_iff.mp hlen.symm
    have hdata := h.data
    rw [hw, append_nil] at hdata
    rw [hres]
    refine ⟨p', ?_⟩
    have hin : ∀ e : Bool, (e = true ↔ p' = .finished) → Intake.In b next
        { c.intake with rd := { rd with i206UseOriginalBody := 0, eofReceived := e } } drain
        (w.getD []) p' := by
      intro e he
      refine ⟨hspec.moves.at_pos.congr rfl rfl, hspec.moves.stream, h.held,
        fun k hk => h.chunks k (hspec.moves.chunks k hk), hpend', ?_, he, h.whole⟩
      rw [append_assoc, ← hspec.moves.left]
      exact hdata
    dsimp only
    split_ifs with heof
    · exact hin true ⟨fun _ => hspec.eof_iff.mp heof, fun _ => rfl⟩
    · refine hin rd.eofReceived ⟨fun he => ?_, fun hp' => absurd (hspec.eof_iff.mpr hp') heof⟩
      have hp' : p' ≠ .finished := fun hp' => heof (hspec.eof_iff.mpr hp')
      rw [(hspec.no_mark hp').1] at he
      exact absurd (h.eof.mp he) hp
  · exact ⟨p, h⟩

theorem serviceIo_intake (c : Run σ) (parseOnly : Bool) (a : IoArgs) :
    (c.serviceIo parseOnly a).2.intake = c.intake := by
  obtain ⟨calls, heff, -⟩ := serviceIo_effect c parseOnly a
  unfold Run.intake
  rw [heff.net, heff.hist]
  have honly := heff.api.only
  have hrd := congrArg Req.rd honly
  have hprev := congrArg Req.previewData honly
  rw [hrd, hprev]
  rfl

/-- What the service takes moves from the pending data to those it has. -/
theorem gsbBook_in (h : c.intake.In b next drain (l.wchunkdata.getD []) p) (read : IoRead)
    (n : Nat) :
    (c.gsbBook l read n).1.intake.In b next drain ((c.gsbBook l read n).2.wchunkdata.getD []) p := by
  have hdrop : (l.wchunkdata.map (·.drop n)).getD [] = (l.wchunkdata.getD []).drop n := by
    cases l.wchunkdata with
    | none => simp
    | some w => rfl
  unfold Run.gsbBook
  rw [hdrop]
  refine ⟨h.at_pos.congr rfl rfl, h.stream, h.held, h.chunks, ?_, ?_, h.eof, h.whole⟩
  · show c.req.rd.writeToModulePending - n = _
    have hlen : c.req.rd.writeToModulePending = (l.wchunkdata.getD []).length := h.pending
    rw [hlen, length_drop]
  · show c.intake.preview ++ (c.intake.accepted ++ (l.wchunkdata.getD []).take n) ++
      (l.wchunkdata.getD []).drop n ++ p.left = b.data
    rw [← h.data]
    simp only [append_assoc]
    rw [← append_assoc ((l.wchunkdata.getD []).take n), take_append_drop]

section

variable (h : c.intake.In m.body next l.parseOnly (l.wchunkdata.getD []) p)
include h

theorem gsbTail_received (t : Tick) : Received cfg P Q req₀ m next (c.gsbTail cfg t l) := by
  have hformat : (c.gsbFormat l).intake = c.intake := by
    unfold Run.gsbFormat
    split
    · exact formatBody_intake c _
    · rfl
  have hpend : c.req.rd.writeToModulePending = (l.wchunkdata.getD []).length := h.pending
  rw [← hformat] at h
  unfold Run.gsbTail
  dsimp only
  split
  · refine ⟨p, ?_⟩
    split_ifs with hidle
    · have hnil : l.wchunkdata.getD [] = [] :=
        length_eq_zero_iff.mp (hpend.symm.trans (of_decide_eq_true hidle))
      rw [hnil] at h
      exact h
    · exact h
  · exact leaveGetSendBody_received cfg h t

theorem gsbRepeat_received (t : Tick) (moved : Bool) (room : Nat) :
    Received cfg P Q req₀ m next (c.gsbRepeat cfg t l moved room) := by
  unfold Run.gsbRepeat
  dsimp only
  split
  · exact ⟨p, h⟩
  · exact gsbTail_received cfg h t

theorem gsbCall_received (t : Tick) : Received cfg P Q req₀ m next (c.gsbCall cfg t l) := by
  have h' : c.intake.In m.body next (c.gsbSetRchunk l).parseOnly ((c.gsbSetRchunk l).wchunkdata.getD []) p := h
  unfold Run.gsbCall
  dsimp only
  split
  · split
    · rename_i read n c' hio
      have hint := serviceIo_intake c (c.gsbSetRchunk l).parseOnly
        ⟨(c.gsbSetRchunk l).rchunkdata, c.gsbRoom l, c.gsbOffer l, c.req.rd.eofReceived⟩
      rw [hio] at hint
      rw [← hint] at h'
      split
      · exact failGetSendBody_received cfg _ _
      · exact gsbRepeat_received cfg (gsbBook_in h' read n) t _ _
    · exact failGetSendBody_received cfg _ _
  · exact gsbRepeat_received cfg h' t _ _

theorem gsbInner_received (hpc : c.pc = .gsbInner l) (hok : Reads P Q c) (t : Tick) :
    Received cfg P Q req₀ m next (c.gsbInner cfg t l) := by
  obtain ⟨p', hin⟩ := gsbParse_in h (hok.once l hpc)
  have hparse : (c.gsbParse l).2.2.parseOnly = l.parseOnly := by
    unfold Run.gsbParse
    split <;> rfl
  rw [← hparse] at hin
  unfold Run.gsbInner
  split
  · exact failGetSendBody_received cfg _ _
  · trivial
  · rename_i hres
    rw [hres] at hin
    exact gsbCall_received cfg hin t

end

/-! ## The end -/

section

variable (h : c.intake.Over P Q m.body next)
include h

theorem afterEndOfData_received : Received cfg P Q req₀ m next c.afterEndOfData := by
  unfold Run.afterEndOfData
  split
  · exact h
  · unfold Run.enterSendRest
    dsimp only
    split_ifs
    · trivial
    all_goals exact h

theorem endOfDataStep_received (t : Tick) :
    Received cfg P Q req₀ m next (c.endOfDataStep cfg t) := by
  unfold Run.endOfDataStep
  split
  · exact afterEndOfData_received cfg h
  rename_i handler _
  rcases handler c.svc c.req.view with ⟨answer, svc, calls⟩
  rw [← intake_of_api (apis_effect c.req calls).only svc] at h
  unfold Run.handled
  generalize ({ c with req := c.req.apis calls, svc := svc } : Run σ) = c' at h ⊢
  split
  · rename_i heq
    cases heq
    exact afterEndOfData_received cfg h
  rename_i heq
  cases heq
  split_ifs
  · trivial
  · split
    · trivial
    · rename_i hres
      rw [← (respond_received cfg c' t .ec204).1, hres] at h
      exact afterEndOfData_received cfg h
  · exact afterEndOfData_received cfg (c := c'.setCode .ec206) h
  · exact received_reject cfg t _

theorem restUpdate_received : Received cfg P Q req₀ m next (c.restUpdate cfg) := by
  have hint := update_intake cfg c
  rw [← hint] at h
  unfold Run.restUpdate
  split
  · rename_i hres
    rw [hres] at h
    exact h
  · rename_i hres
    rw [hres] at h
    exact h
  · trivial

theorem restBody_received : Received cfg P Q req₀ m next (c.restBody cfg) := by
  have hint := serviceIo_intake c false ⟨true, maxChunkSize, none, true⟩
  unfold Run.restBody
  split
  · trivial
  · trivial
  · rename_i c' hio
    rw [hio] at hint
    rw [← hint, ← formatBody_intake c' true] at h
    exact restUpdate_received cfg h
  rename_i out _ c' hio
  rw [hio] at hint
  rw [← hint] at h
  split
  · exact h
  · have hformat := formatBody_intake { c' with
      req := { c'.req with block := ⟨.raw, 0, out⟩ }
      hist := { c'.hist with produced := c'.hist.produced ++ out } } false
    refine restUpdate_received cfg ?_
    rw [hformat]
    exact h

end

theorem sendRestStep_received (hpc : c.pc = .sendRest) (h : c.intake.Over P Q m.body next) (t : Tick) :
    Received cfg P Q req₀ m next (c.sendRestStep cfg t) := by
  have hint := sendCurrentBlock_intake c t
  have hpc' : (c.sendCurrentBlock t).2.pc = c.pc := by
    unfold Run.sendCurrentBlock
    split
    · rfl
    · split <;> rfl
  unfold Run.sendRestStep
  split
  · split
    · trivial
    · split
      · trivial
      · rename_i hres
        rw [hres] at hint hpc'
        unfold Received
        rw [hpc', hpc, hint]
        exact h
  · split
    · exact restBody_received cfg h
    · exact restUpdate_received cfg h

theorem sendOptionsStep_received (hpc : c.pc = .sendOptions) (h : c.intake.Over P Q m.body next)
    (t : Tick) : Received cfg P Q req₀ m next (c.sendOptionsStep t) := by
  have hint := sendCurrentBlock_intake c t
  have hpc' : (c.sendCurrentBlock t).2.pc = c.pc := by
    unfold Run.sendCurrentBlock
    split
    · rfl
    · split <;> rfl
  unfold Run.sendOptionsStep
  split
  · exact h
  rw [← hint] at h
  split
  · rename_i hres
    rw [hres] at h
    exact h
  · rename_i hres
    rw [hres] at h hpc'
    split
    · exact h
    · unfold Received
      rw [hpc', hpc]
      exact h

/-! ## Runs -/

/-- **The receiving side of a step.** -/
theorem step_received (hwf : m.WellFormed cfg req₀) (h : Received cfg P Q req₀ m next c)
    (hok : Reads P Q c) (t : Tick) : Received cfg P Q req₀ m next (c.step cfg t) := by
  have hadvance : Received cfg P Q req₀ m next (c.advance cfg t) := by
    have h₀ := h
    unfold Run.advance
    cases hpc : c.pc with
    | start => exact startStep_received cfg hwf hpc h t
    | readHeader buf back => exact readHeaderStep_received cfg hwf hpc h t
    | encaps i => exact encapsStep_received cfg hwf hpc h t
    | readEncaps i buf remains => exact readEncapsStep_received cfg hpc h t
    | previewRead => exact previewReadStep_received cfg hpc h t
    | previewParse => exact previewParseStep_received cfg hpc h hok t
    | preview eof => exact previewStep_received cfg hwf hpc h t
    | fakePreview => exact fakePreviewStep_received cfg hwf hpc h hok t
    | finished ret | fault => exact h₀
    | sendOptions =>
      unfold Received at h
      rw [hpc] at h
      exact sendOptionsStep_received cfg hpc h t
    | gsbTop l =>
      unfold Received at h
      rw [hpc] at h
      obtain ⟨p, hin⟩ := h
      exact gsbTop_received cfg hin t
    | gsbInner l =>
      unfold Received at h
      rw [hpc] at h
      obtain ⟨p, hin⟩ := h
      exact gsbInner_received cfg hin hpc hok t
    | endOfData =>
      unfold Received at h
      rw [hpc] at h
      exact endOfDataStep_received cfg ⟨h, fun hQ _ => hok.taken hQ hpc⟩ t
    | sendRest =>
      unfold Received at h
      rw [hpc] at h
      exact sendRestStep_received cfg hpc h t
  unfold Run.step Run.checked
  split
  · trivial
  · exact hadvance

end Body

end CIcap
