import CIcap.Request.Trailers

/-! # The success of `send_remaining_response`

The function ends with success in three places: at once, when the response has ended; when
`update_send_status` reports the end; and when `service_io` gives no data. A response that is complete is
one that nothing is left of, whose body is closed by the last chunk and whose promised trailers have been
begun. `send_remaining_complete_iff` says at which of these ends it is.
-/

namespace CIcap

open CText Pieces

variable {σ : Type} (cfg : Config σ)

/-- Trailers are to follow the body: the test of `update_send_status`. -/
def Req.promised (req : Req σ) : Bool := req.allowTrailers && req.trailerNames.isSome

/-- The response has been handed to the connection. -/
structure Run.Complete (c : Run σ) : Prop where
  sent : c.req.block.bytes = []
  last : c.req.responceHasbody = true → .last ∈ started c.net.final
  trailers : c.req.responceHasbody = true → c.req.promised = true → c.req.status = .trailers

/-- `service_io` is asked for more of the body and gives no data. -/
def Run.NoData (c : Run σ) : Prop :=
  c.pc = .sendRest ∧ c.req.block.bytes = [] ∧ c.req.status = .body ∧
    ∃ took, (c.serviceIo false ⟨true, maxChunkSize, none, true⟩).1 = .ok (.data []) took

/-- The body has been closed and its trailers have not been begun when the function is called. -/
def Run.SkipsTrailers (c : Run σ) : Prop :=
  c.pc = .endOfData ∧ c.req.status = .eof ∧ c.req.block.bytes = [] ∧ c.req.responceHasbody = true ∧
    c.req.promised = true

/-! ## The ends of the function -/

/-- The end that `update_send_status` reports. -/
def Req.Over (req : Req σ) : Prop :=
  req.block.bytes = [] ∧ (req.status = .trailers ∨
    req.status = .eof ∧ (req.responceHasbody = true → req.promised = false))

theorem updateSendStatus_over {req : Req σ} (h : (updateSendStatus cfg req).1 = .eof) :
    (updateSendStatus cfg req).2.Over := by
  have hnext : ∀ status i, (nextBlock req status i).1 = .eof → (nextBlock req status i).2.Over := by
    intro status i
    unfold nextBlock
    split
    · exact nofun
    · split
      · exact nofun
      · rename_i hb
        exact fun _ => ⟨rfl, .inr ⟨rfl, fun hb' => absurd hb' hb⟩⟩
  unfold updateSendStatus at h ⊢
  cases hst : req.status <;> simp only [hst] at h ⊢
  case nothing => cases h
  case body => cases h
  case trailers =>
    split at h
    · rename_i hnil
      exact ⟨hnil, .inl hst⟩
    · cases h
  case eof =>
    split at h
    · rename_i hnil
      split at h
      · cases h
      · rename_i hp
        rw [if_pos hnil, if_neg hp]
        exact ⟨hnil, .inr ⟨hst, fun _ => by simpa [Req.promised] using hp⟩⟩
    · cases h
  all_goals exact hnext _ _ h

variable {c : Run σ}

theorem restUpdate_over (h : (c.restUpdate cfg).pc = .finished .ok) :
    (c.restUpdate cfg).req.Over := by
  have hover := @updateSendStatus_over σ cfg c.req
  unfold Run.restUpdate at h ⊢
  generalize updateSendStatus cfg c.req = r at h hover
  obtain ⟨ret, req⟩ := r
  cases ret with
  | ok => cases h
  | eof => exact hover rfl
  | error => cases h

theorem sendRestStep_finished {t : Tick} (hpc : c.pc = .sendRest)
    (h : (c.sendRestStep cfg t).pc = .finished .ok) :
    c.NoData ∧ (c.sendRestStep cfg t).req.status = .body ∨
      ¬ c.NoData ∧ (c.sendRestStep cfg t).req.Over := by
  unfold Run.sendRestStep at h ⊢
  by_cases hnil : c.req.block.bytes = []
  case neg =>
    -- a piece of the block is written, or the request ends with an error
    rw [if_pos hnil] at h
    unfold Run.sendCurrentBlock at h
    rw [if_neg hnil] at h
    split at h
    · cases h
    · cases hw : t.write with
      | none => rw [hw] at h; cases h
      | some n =>
        rw [hw] at h
        exact absurd (hpc.symm.trans h) nofun
  rw [if_neg (not_not.mpr hnil)] at h ⊢
  by_cases hst : c.req.status = .body
  case neg =>
    rw [if_neg hst] at h ⊢
    exact .inr ⟨fun hno => hst hno.2.2.1, restUpdate_over cfg h⟩
  rw [if_pos hst] at h ⊢
  obtain ⟨calls, heff, -⟩ := serviceIo_effect c false ⟨true, maxChunkSize, none, true⟩
  obtain ⟨hst', -⟩ := heff.side
  unfold Run.NoData
  unfold Run.restBody at h ⊢
  generalize c.serviceIo false ⟨true, maxChunkSize, none, true⟩ = r at h hst'
  obtain ⟨res, d⟩ := r
  match res, h with
  | .ok .eof _, h => exact .inr ⟨(fun ⟨_, _, _, _, hno⟩ => nomatch hno), restUpdate_over cfg h⟩
  | .ok (.data out) took, h =>
    dsimp only at h ⊢
    by_cases hout : out = []
    · rw [if_pos hout]
      exact .inl ⟨⟨hpc, hnil, hst, took, by rw [hout]⟩, hst'.trans hst⟩
    · rw [if_neg hout] at h ⊢
      refine .inr ⟨fun ⟨_, _, _, _, hno⟩ => ?_, restUpdate_over cfg h⟩
      cases hno
      exact hout rfl

theorem afterEndOfData_finished (h : c.afterEndOfData.pc = .finished .ok)
    (hcode : c.afterEndOfData.req.returnCode ≠ some .ec204) :
    c.req.status = .eof ∧ c.req.block.bytes = [] ∧
      c.afterEndOfData.req = { c.req with dataLocked := false } := by
  unfold Run.afterEndOfData Run.enterSendRest at h hcode ⊢
  by_cases h204 : c.req.returnCode = some .ec204
  · rw [if_pos h204] at hcode
    exact absurd h204 hcode
  rw [if_neg h204] at h ⊢
  dsimp only at h ⊢
  split at h
  · cases h
  split at h
  · rename_i hio hend
    rw [if_neg hio, if_pos hend]
    exact ⟨hend.1, hend.2, rfl⟩
  · cases h

variable {P : Premises} {cs : List (List UInt8)} {q : List QBlock}

theorem endOfDataStep_finished {c r : Run σ} {t : Tick}
    (hpc : c.pc = .endOfData) (hs : c.Sends P [] cs q)
    (hbegun : (c.req.status ≠ .nothing → c.req.packed = true) ∨ Simple P c)
    (hr : c.endOfDataStep cfg t = r) (h : r.pc = .finished .ok) (hcode : r.req.returnCode ≠ some .ec204) :
    r.req.block.bytes = [] ∧ r.req.status = .eof ∧
      (r.req.responceHasbody = true ∧ r.req.promised = true ↔ c.SkipsTrailers) := by
  -- the handler cannot change what matters of a response that is under way
  have hcalled : ∀ d : Run σ, (∃ x, d.req = c.req.withApi x) →
      (c.req.packed = true → d.req.trailerNames = c.req.trailerNames) → d.afterEndOfData = r →
      r.req.block.bytes = [] ∧ r.req.status = .eof ∧
        (r.req.responceHasbody = true ∧ r.req.promised = true ↔ c.SkipsTrailers) := by
    rintro d ⟨x, hx⟩ hnames rfl
    obtain ⟨hst, hnil, hreq⟩ := afterEndOfData_finished h hcode
    rw [hreq]
    refine ⟨hnil, hst, ?_⟩
    unfold Req.promised
    rw [hx] at hst hnil hnames ⊢
    rcases hbegun with hp | hsimple
    · have hpk := hp (by rw [show c.req.status = .eof from hst]; nofun)
      rw [hnames hpk]
      exact ⟨fun h => ⟨hpc, hst, hnil, h⟩, fun h => h.2.2.2⟩
    · have hno : ¬ c.req.responceHasbody = true := by simp [hsimple.body]
      exact ⟨fun h => absurd h.1 hno, fun h => absurd h.2.2.2.1 hno⟩
  unfold Run.endOfDataStep at hr
  split at hr
  · exact hcalled c ⟨_, (ApiEffect.refl c.req).only⟩ (fun _ => rfl) hr
  rename_i handler hh
  have heff := apis_effect c.req (handler c.svc c.req.view).2.2
  split at hr
  · rename_i d hd
    obtain ⟨-, rfl⟩ := Prod.mk.inj hd
    refine hcalled _ ?_ heff.names hr
    exact ⟨_, heff.only⟩
  rename_i answer d _ hd
  cases hd
  -- another answer counts only before the response has begun
  split at hr
  · cases hr
    cases h
  rename_i hst
  have hbegin : c.req.status = .nothing := by
    rw [← not_not.mp hst]
    rw [heff.only]
    rfl
  have hskip : ¬ c.SkipsTrailers := fun hs => by
    rw [hs.2.1] at hbegin
    cases hbegin
  split at hr
  · split at hr
    · cases hr
      cases h
    rename_i e he
    cases hr
    obtain ⟨hst, hnil, hreq⟩ := afterEndOfData_finished h hcode
    have hbody : e.req.responceHasbody = false := by
      have hsame : _ = e.req.responceHasbody := congrArg (fun p => p.2.req.responceHasbody) he
      rw [← hsame]
      rw [heff.only]
      exact (hs.queue_nil hbegin).2.2
    rw [hreq]
    refine ⟨hnil, hst, ⟨fun hb => absurd hb.1 ?_, fun hs => absurd hs hskip⟩⟩
    simp [hbody]
  split at hr
  · cases hr
    obtain ⟨hst', -⟩ := afterEndOfData_finished h hcode
    exact absurd (hst'.symm.trans (not_not.mp hst)) nofun
  · cases hr
    cases h

/-! ## Complete responses -/

def noPremises : Premises := ⟨False, False, False, False, False⟩

theorem stepOk_noPremises (c : Run σ) : StepOk noPremises c :=
  ⟨False.elim, fun _ => ⟨False.elim, False.elim, False.elim⟩, False.elim⟩

/-- The last chunk is queued when the body has been closed. -/
theorem Queue.last_mem {s : Side σ} {status : SendStatus}
    (hq : Queue P s status cs q) (hb : s.responceHasbody = true) (hst : status = .eof ∨ status = .trailers) :
    .last ∈ kinds q := by
  induction hq with
  | nothing hb' => cases hb.symm.trans hb'
  | heads _ hi => rcases hst with rfl | rfl <;> cases hi
  | body => rcases hst with h | h <;> cases h
  | @closed _ _ last _ _ _ _ hl =>
    have hne : last ≠ [] := by
      rcases hl with rfl | ⟨n, rfl⟩ <;> simp [crlf]
    refine List.mem_map.mpr ⟨(.last, last), List.mem_filter.mpr ⟨?_, by simpa using hne⟩, rfl⟩
    exact List.mem_cons_of_mem _ (List.mem_append_right _ (List.mem_singleton.mpr rfl))
  | bodiless _ hb' | simple hb' => cases hb.symm.trans hb'
  | trailers _ _ _ _ _ ih =>
    rw [kinds_append]
    exact List.mem_append_left _ (ih (.inl rfl))

theorem Queue.last_notMem {s : Side σ} (hq : Queue P s .body cs q) : .last ∉ q.map Prod.fst := by
  cases hq with
  | heads _ hi => cases hi
  | body _ _ he _ =>
    intro hm
    simp only [List.map_cons, List.mem_cons, List.map_append, List.map_map, List.mem_append, List.mem_map] at hm
    rcases hm with hm | ⟨b, hb, hsrc⟩ | ⟨d, -, hd⟩
    · cases hm
    · obtain ⟨k, hk⟩ := he.src b hb
      cases hk.symm.trans hsrc
    · cases hd

section Run

variable {cfg}

theorem SendInv.complete {c : Run σ} (h : SendInv noPremises c) (hover : c.req.Over) : c.Complete := by
  obtain ⟨hnil, hst⟩ := hover
  refine ⟨hnil, fun hb => ?_, fun hb hp => hst.resolve_right fun h => ?_⟩
  · obtain ⟨pre, cs, q, hs, -⟩ := h
    rw [hs.writes.started_of_nil (Block.out_of_nil hnil), kinds_append]
    exact List.mem_append_right _ (hs.queue.last_mem hb (hst.symm.imp And.left id))
  · rw [h.2 hb] at hp
    cases hp

theorem SendInv.not_complete {c : Run σ} (h : SendInv noPremises c) (hst : c.req.status = .body) :
    ¬ c.Complete := by
  obtain ⟨pre, cs, q, hs, -⟩ := h
  have hq := hs.queue
  rw [show c.req.side.status = .body from hst] at hq
  intro hc
  have hb : c.req.responceHasbody = true := by
    cases hq with
    | heads _ hi => cases hi
    | body _ hb => exact hb
  have hm := hs.writes.started_sublist.subset (hc.last hb)
  rw [List.map_append, List.mem_append] at hm
  rcases hm with hm | hm
  · rcases hs.pre_ok with rfl | ⟨h', out, rfl, -⟩
    · cases hm
    · cases List.mem_singleton.mp hm
  · exact hq.last_notMem hm

end Run

theorem Pc.eq_sendRest {pc : Pc} (h : (match pc with | .sendRest => true | _ => false) = true) :
    pc = .sendRest := by
  cases pc <;> first | rfl | cases h

/-- The steps of a short request up to the end of its response. -/
def restTicks : List Tick :=
  [tick 0 0, tick 0 0, tick 5 0, tick 0 0, tick 0 0, tick 0 0, tick 0 512, tick 0 0, tick 0 0, tick 0 512,
    tick 0 0, tick 0 512]

/-- A service that never gives data and never reports the end. -/
def muteService : Service Unit where
  modName := bytes "mute"
  supports _ := true
  istag := bytes "1"
  serviceIo := some fun _ _ a => (.ok (.data []) (some (a.wdata.getD []).length), (), [])

end CIcap
