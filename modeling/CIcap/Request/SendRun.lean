import CIcap.Request.Response

/-! # The sending side in the preview, the loops and at the end

The remaining steps of the server carry `SendInv` on: the preview with its early answers,
`get_send_body`, `do_end_of_data` and `send_remaining_response`. `step_sendInv` puts the steps
together and `run_sendInv` follows a whole run.
-/

namespace CIcap

open CText Pieces

variable {σ : Type} (cfg : Config σ) {P : Premises}

section Preview

variable {c : Run σ} {pre q : List QBlock} {cs : List (List UInt8)}

/-! ## Ends without a body -/

theorem Simple.ended (h : Simple P c) {out : List UInt8}
    (hs : c.Sends P [] [] [(.head c.req.responseHeader, out)]) : SendInv P (c.finish .ok) := by
  refine ⟨[], [], _, hs, ?_, ?_⟩
  · intro _ hb
    rw [show (c.finish .ok).req.responceHasbody = false from h.body] at hb
    cases hb
  · rintro _ ht _ _ ⟨h', out', hmem, ha⟩
    rw [List.nil_append, List.mem_singleton] at hmem
    cases hmem
    rw [h.silent ht] at ha
    cases ha

/-- The point behind `do_request_preview` after a response that was written at once: the code
is 204, or 200 where that stands for it. -/
theorem afterPreview_simple (h : Simple P c) (hr : Ready P c.req.side) (hty : c.req.side.IsMod)
    (hecho : c.req.echoBody = none) {out : List UInt8}
    (hs : c.Sends P [] [] [(.head c.req.responseHeader, out)]) (t : Tick)
    (hcode : c.req.returnCode = some .ec204 ∨ c.req.returnCode = some .ec200) :
    SendInv P (c.afterPreview cfg t false) := by
  unfold Run.afterPreview
  rcases hcode with hc | hc
  · simp only [Bool.false_eq_true, if_false, hc]
    exact h.ended hs
  simp only [Bool.false_eq_true, if_false, hc]
  refine ⟨[], [], _, hs, ⟨⟨hr, hty, ?_⟩, rfl, ?_, .inl hc, ?_⟩, .inr { h with }⟩
  · intro hst
    rw [show ({ c with pc := .endOfData } : Run σ).req.status = .eof from h.status] at hst
    cases hst
  · exact Block.raw_of_nil h.block
  · intro he
    rw [show ({ c with pc := .endOfData } : Run σ).req.echoBody = none from hecho] at he
    cases he

/-- The entry of `get_send_body` when nothing has been sent. -/
theorem enterGetSendBody_sendInv (hs : c.Sends P pre cs q) (hst : c.req.status = .nothing)
    (hb : c.req.block.bytes = []) (hp : c.req.packed = false) (hr : Ready P c.req.side)
    (hty : c.req.side.IsMod) (hpre : pre = []) (hcode : c.req.side.Successful) :
    SendInv P (c.enterGetSendBody false) := by
  refine ⟨pre, cs, q, hs.early hst rfl rfl rfl rfl rfl, ⟨⟨?_, hty, fun _ => ⟨hb, hp⟩⟩, ?_,
    fun _ => hpre, nofun, fun _ => hcode⟩, Block.raw_of_nil hb⟩
  · exact hr.moved _ _
  · exact fun hne => absurd rfl hne

/-- The point behind `do_request_preview` when nothing has been sent. -/
theorem afterPreview_early (he : Early P c pre) (hty : c.req.side.IsMod) (hs : c.Sends P pre cs q)
    (t : Tick) (eof : Bool) (hcode : eof = true ∨
      c.req.returnCode = some .ec100 ∧ c.req.hasbody = true ∨
      c.req.returnCode = some .ec200 ∨ c.req.returnCode = some .ec206) :
    SendInv P (c.afterPreview cfg t eof) := by
  -- a change of the code is not noticed before the head is built
  have hcode' : ∀ (d : Run σ), d.req.status = c.req.status → d.req.block = c.req.block →
      d.req.responceHasbody = c.req.responceHasbody → d.net.final = c.net.final →
      d.hist.produced = c.hist.produced → d.Sends P pre cs q := fun d h1 h2 h3 h4 h5 =>
    hs.early he.status (h1.trans he.status) h2 h3 h4 h5
  have hready : ∀ ec : Option Ec, Ready P { c.req with returnCode := ec }.side := fun ec =>
    he.ready.unpacked he.packed rfl rfl rfl rfl rfl rfl
  have hend : ∀ ec : Option Ec, ec = some .ec200 ∨ ec = some .ec206 →
      SendInv P { c with req := { c.req with returnCode := ec }, pc := .endOfData } := by
    intro ec hec
    refine ⟨pre, cs, q, hcode' _ rfl rfl rfl rfl rfl, ⟨⟨hready ec, hty, fun _ => ⟨he.block, he.packed⟩⟩,
      he.pre, Block.raw_of_nil he.block, hec, ?_⟩, .inl fun hne => absurd he.status hne⟩
    intro hsome
    rw [show ({ c with req := { c.req with returnCode := ec }, pc := .endOfData } :
      Run σ).req.echoBody = none from he.echo] at hsome
    cases hsome
  unfold Run.afterPreview
  cases eof with
  | true => exact hend (some .ec200) (.inl rfl)
  | false =>
    simp only [Bool.false_eq_true, if_false, false_or] at hcode ⊢
    rcases hcode with ⟨hc, hbody⟩ | hc | hc
    · simp only [hc]
      rw [if_pos ⟨hbody, rfl⟩]
      split
      · apply enterGetSendBody_sendInv
        · exact hcode' _ rfl rfl rfl rfl rfl
        · exact he.status
        · exact he.block
        · exact he.packed
        · exact hready _
        · exact hty
        · exact he.pre
        · exact .inl rfl
      · exact Run.Sends.close (hcode' _ rfl rfl rfl rfl rfl)
    · simp only [hc]
      exact hend c.req.returnCode (.inl hc)
    · simp only [hc]
      exact hend c.req.returnCode (.inr hc)

/-! ## The preview -/

/-- The preview handler is called before anything is sent. -/
theorem callPreview_early (he : Early P c pre) (hty : c.req.side.IsMod) (hs : c.Sends P pre cs q)
    {data : Option (List UInt8)} {answer : ModAnswer} {c' : Run σ}
    (h : c.callPreview data = (answer, c')) :
    Early P c' pre ∧ c'.req.side.IsMod ∧ c'.Sends P pre cs q ∧ c'.req.hasbody = c.req.hasbody := by
  unfold Run.callPreview at h
  split at h
  · cases h
    exact ⟨he, hty, hs, rfl⟩
  rename_i handler hh
  obtain ⟨m, hm, hh⟩ := Option.bind_eq_some_iff.mp hh
  have heff := apis_effect c.req (handler c.svc c.req.view data).2.2
  have hplain : P.trailers → ∀ a ∈ (handler c.svc c.req.view data).2.2, a.plain = true :=
    fun ht => ((he.ready.service m hm).plain ht).preview handler hh _ _ _
  cases h
  have honly := heff.only
  refine ⟨he.api heff hplain, ?_, hs.apiEarly he.status heff, ?_⟩
  · rw [honly]
    exact hty
  · rw [honly]
    rfl

/-- An answer without modification, written at once. -/
theorem respond204 (hs : c.Sends P [] cs q) (hst : c.req.status = .nothing)
    (hb : c.req.block.bytes = []) (hp : c.req.packed = false) (hr : Ready P c.req.side) (t : Tick) :
    let c' := (c.respond cfg t .ec204).2
    Simple P c' ∧ Ready P c'.req.side ∧
      (∃ out, c'.Sends P [] [] [(.head c'.req.responseHeader, out)]) ∧
      (c'.req.returnCode = some .ec204 ∨ c'.req.returnCode = some .ec200) := by
  refine ⟨⟨rfl, hb, (hs.queue_nil hst).2.2, fun ht => ecHead_silent cfg (hr.plain ht) _⟩,
    hr.unpacked hp rfl rfl rfl rfl rfl rfl, ⟨_, hs.respond cfg hst hb hp t .ec204⟩, ?_⟩
  have hcode : (c.respond cfg t .ec204).2.req.returnCode = some
      (if Ec.ec204 = .ec204 ∧ cfg.allow204As200okZeroEncaps = true then .ec200 else .ec204) := rfl
  rw [hcode]
  split
  · exact .inr rfl
  · exact .inl rfl

theorem Early.respond204 (he : Early P c pre) (hty : c.req.side.IsMod) (hs : c.Sends P pre cs q)
    (t : Tick) :
    let c' := (c.respond cfg t .ec204).2
    Simple P c' ∧ Ready P c'.req.side ∧ c'.req.side.IsMod ∧ c'.req.echoBody = none ∧
      (∃ out, c'.Sends P [] [] [(.head c'.req.responseHeader, out)]) ∧
      (c'.req.returnCode = some .ec204 ∨ c'.req.returnCode = some .ec200) := by
  obtain rfl := he.pre
  obtain ⟨h1, h2, h3, h4⟩ := CIcap.respond204 cfg hs he.status he.block he.packed he.ready t
  exact ⟨h1, h2, hty, he.echo, h3, h4⟩

/-- The state with another code, while nothing has been sent. -/
theorem Early.setCode (he : Early P c pre) (ec : Ec) : Early P (c.setCode ec) pre :=
  ⟨he.pre, he.status, he.block, he.packed, he.echo,
    he.ready.unpacked he.packed rfl rfl rfl rfl rfl rfl⟩

theorem Run.Sends.setCode (hs : c.Sends P pre cs q) (hst : c.req.status = .nothing) (ec : Ec) :
    (c.setCode ec).Sends P pre cs q :=
  hs.early hst hst rfl rfl rfl rfl

section

variable (he : Early P c pre)
include he

theorem sendContinue_early (hs : c.Sends P pre cs q) (t : Tick) :
    Early P (c.sendContinue t) pre ∧ (c.sendContinue t).Sends P pre cs q := by
  have hfin : (c.net.put ⟨.interim, 0, (ecResponceSimple .ec100).take (t.write.getD 0)⟩).final =
      c.net.final := by
    unfold Net.final Net.put
    rw [put_filter, if_neg (by simp)]
  unfold Run.sendContinue Run.write
  dsimp only
  split
  all_goals exact ⟨(he.setCode .ec100).congr rfl rfl, hs.early he.status he.status rfl rfl hfin rfl⟩

variable (hty : c.req.side.IsMod)
include hty

theorem previewReadStep_sendInv
    (hbody : c.req.hasbody = true) (hs : c.Sends P pre cs q) (t : Tick) :
    SendInv P (c.previewReadStep cfg t) := by
  unfold Run.previewReadStep
  split
  · exact he.reject cfg hs t _
  obtain ⟨rd, input, heq⟩ := netDataRead_frame c t
  have he' : Early P (c.netDataRead t).2 pre := by rw [heq]; exact he.congr rfl rfl
  have hs' : (c.netDataRead t).2.Sends P pre cs q := by rw [heq]; exact hs.congr rfl rfl rfl
  have hty' : (c.netDataRead t).2.req.side.IsMod := by rw [heq]; exact hty
  have hbody' : (c.netDataRead t).2.req.hasbody = true := by rw [heq]; exact hbody
  split
  · rename_i hr
    rw [hr] at he' hs'
    exact he'.reject cfg hs' t _
  · rename_i hr
    rw [hr] at he' hs' hty' hbody'
    exact ⟨pre, cs, q, hs', he'.congr rfl rfl, hty', hbody'⟩

theorem previewParseStep_sendInv
    (hbody : c.req.hasbody = true) (hs : c.Sends P pre cs q) (t : Tick) :
    SendInv P (c.previewParseStep cfg t) := by
  unfold Run.previewParseStep
  dsimp only
  split
  · apply Early.reject cfg
    · exact he.congr rfl rfl
    · exact hs.congr rfl rfl rfl
  · exact (hs.congr rfl rfl rfl).fault
  · split
    · apply Early.reject cfg
      · exact he.congr rfl rfl
      · exact hs.congr rfl rfl rfl
    · split
      · exact ⟨pre, cs, q, hs.congr rfl rfl rfl, he.congr rfl rfl, hty, fun _ => hbody⟩
      all_goals exact ⟨pre, cs, q, hs.congr rfl rfl rfl, he.congr rfl rfl, hty, hbody⟩

theorem previewStep_sendInv
    (hs : c.Sends P pre cs q) (t : Tick) {eof : Bool} (hbody : eof = false → c.req.hasbody = true) :
    SendInv P (c.previewStep cfg t eof) := by
  unfold Run.previewStep
  split
  · rename_i c' hcall
    obtain ⟨he', hty', hs', -⟩ := callPreview_early he hty hs hcall
    obtain ⟨h1, h2, h3, h4, ⟨out, h5⟩, h6⟩ := he'.respond204 cfg hty' hs' t
    split
    · rename_i hresp
      rw [hresp] at h5
      exact h5.close
    · rename_i hresp
      rw [hresp] at h1 h2 h3 h4 h5 h6
      exact afterPreview_simple cfg h1 h2 h3 h4 h5 t h6
  · rename_i c' hcall
    obtain ⟨he', hty', hs', hb⟩ := callPreview_early he hty hs hcall
    split
    · apply afterPreview_early cfg
      · exact he'.congr rfl rfl
      · exact hty'
      · exact hs'.congr rfl rfl rfl
      · exact .inl rfl
    rename_i heof
    obtain ⟨he2, hs2⟩ := sendContinue_early (c := c'.wantsWholeBody) (he'.congr rfl rfl)
      (hs'.congr rfl rfl rfl) t
    have hcont : (c'.wantsWholeBody.sendContinue t).req.side.IsMod ∧
        (c'.wantsWholeBody.sendContinue t).req.returnCode = some .ec100 ∧
        (c'.wantsWholeBody.sendContinue t).req.hasbody = c'.req.hasbody := by
      unfold Run.sendContinue Run.write
      dsimp only
      split <;> exact ⟨hty', rfl, rfl⟩
    refine afterPreview_early cfg he2 hcont.1 hs2 t false (.inr (.inl ⟨hcont.2.1, ?_⟩))
    rw [hcont.2.2, hb]
    exact hbody (by simpa using heof)
  · rename_i c' hcall
    obtain ⟨he', hty', hs', -⟩ := callPreview_early he hty hs hcall
    split
    · exact afterPreview_early cfg (he'.setCode _) hty' (hs'.setCode he'.status _) t false
        (.inr (.inr (.inr rfl)))
    · exact he'.reject cfg hs' t _
  · rename_i hcall
    obtain ⟨he', -, hs', -⟩ := callPreview_early he hty hs hcall
    exact he'.reject cfg hs' t _

end

/-- A response was written at once; the body that follows is read and dropped. The head stands
before the queue of a response that has not begun. -/
theorem drain_sendInv (h : Simple P c) (hp : c.req.packed = false) (hr : Ready P c.req.side)
    (hty : c.req.side.IsMod) {out : List UInt8}
    (hs : c.Sends P [] [] [(.head c.req.responseHeader, out)]) :
    SendInv P (c.enterGetSendBody true) := by
  refine ⟨[(.head c.req.responseHeader, out)], [], [], ?_, ⟨⟨?_, hty, fun _ => ⟨h.block, hp⟩⟩, ?_,
    nofun, fun _ => by simp, nofun⟩, Block.raw_of_nil h.block⟩
  · refine ⟨?_, .nothing h.body, hs.data, hs.src, .inr ⟨_, _, rfl, h.silent⟩, fun _ _ => rfl⟩
    exact hs.writes
  · exact hr.moved _ _
  · exact fun hne => absurd rfl hne

theorem fakePreviewStep_sendInv (he : Early P c pre) (hty : c.req.side.IsMod)
    (hs : c.Sends P pre cs q) (t : Tick) : SendInv P (c.fakePreviewStep cfg t) := by
  unfold Run.fakePreviewStep
  split
  · rename_i c' hcall
    obtain ⟨he', hty', hs', -⟩ := callPreview_early he hty hs hcall
    apply afterPreview_early cfg
    · exact Early.setCode (c := c'.wantsWholeBody) (he'.congr rfl rfl) _
    · exact hty'
    · exact Run.Sends.setCode (c := c'.wantsWholeBody) (hs'.congr rfl rfl rfl) he'.status _
    · by_cases hb : c'.req.hasbody = true
      · exact .inr (.inl ⟨congrArg some (if_pos hb), hb⟩)
      · exact .inr (.inr (.inl (congrArg some (if_neg hb))))
  · rename_i c' hcall
    obtain ⟨he', hty', hs', -⟩ := callPreview_early he hty hs hcall
    split
    · obtain ⟨h1, h2, h3, h4, ⟨out, h5⟩, h6⟩ := he'.respond204 cfg hty' hs' t
      have hp : (c'.respond cfg t .ec204).2.req.packed = false := he'.packed
      split
      · rename_i hresp
        rw [hresp] at h5
        exact h5.close
      rename_i hresp
      rw [hresp] at h1 h2 h3 h4 h5 hp
      split
      · exact drain_sendInv h1 hp h2 h3 h5
      · refine @Simple.ended σ P _ ?_ out ?_
        · exact { h1 with }
        · exact { h5 with queue := (h5.queue.transfer rfl rfl rfl
            (fun h => (Bool.false_ne_true (hp.symm.trans h)).elim) (fun _ => rfl)
            (fun _ _ _ => rfl)) }
    · split
      · exact afterPreview_early cfg (he'.setCode _) hty' (hs'.setCode he'.status _) t false
          (.inr (.inr (.inl rfl)))
      rename_i hbody
      have hbody' : c'.req.hasbody = true := by simpa using hbody
      split
      · -- the echo: a ring buffer takes the place of the service
        unfold Run.afterPreview
        simp only [Bool.false_eq_true, if_false, Run.setCode]
        rw [if_pos ⟨hbody', rfl⟩]
        apply enterGetSendBody_sendInv
        · exact hs'.early he'.status he'.status rfl rfl rfl rfl
        · exact he'.status
        · exact he'.block
        · exact he'.packed
        · exact he'.ready.unpacked he'.packed rfl rfl rfl rfl rfl rfl
        · exact hty'
        · exact he'.pre
        · exact .inl rfl
      · exact he'.reject cfg hs' t _
  · rename_i c' hcall
    obtain ⟨he', hty', hs', -⟩ := callPreview_early he hty hs hcall
    split
    · exact afterPreview_early cfg (he'.setCode _) hty' (hs'.setCode he'.status _) t false
        (.inr (.inr (.inr rfl)))
    · exact he'.reject cfg hs' t _
  · rename_i hcall
    obtain ⟨he', -, hs', -⟩ := callPreview_early he hty hs hcall
    exact he'.reject cfg hs' t _

end Preview

end CIcap
