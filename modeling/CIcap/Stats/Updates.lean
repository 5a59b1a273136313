import CIcap.Stats.Effect

/-! # The histograms of all children together

All children update the same histograms, so nothing has to be added up when a child is gone. But a
child that starts lays the histograms out again when it attaches the shared memory, and that clears
the bins. `Kept` says which steps leave the counts right, and `histo_total_iff` that there are no
others.
-/

namespace CIcap

open List

namespace StatServer

variable {types : List StatType} {s : StatServer}

/-- Each histogram has counted the updates made to it. -/
def HistoCounted (s : StatServer) : Prop :=
  ∀ (id : Nat) (h : Histogram), s.queue.histoArea[id]? = some h →
    h.total.toNat = s.updates id % 2 ^ 64

/-- What holds of the layout of the histograms in every run. -/
def HistoInv (s : StatServer) : Prop :=
  ∀ h ∈ s.queue.histoArea, h.header.Created ∧ h.bins.length = h.header.items

/-- The condition on a step: a child starts while nothing is counted in the bins, and an update
goes to a histogram that has bins or counts in the bin `other`. -/
def Kept (s : StatServer) (e : StatEvent) : Prop :=
  s.halted = none →
    match e with
    | .start => ∀ h ∈ s.queue.histoArea, h.bins.sum = 0
    | .histoUpdate pid id value => ∀ i c h, s.queue.getChildData pid = some (i, c) →
        s.queue.histoArea[id]? = some h → c.exited = false → c.attached = true →
          h.header.pos value = none ∨ 0 < h.header.items
    | _ => True

theorem histoCounted_iff : s.HistoCounted ↔
    ∀ (id : Nat) (h : Histogram), s.queue.histoArea[id]? = some h →
      h.total = UInt64.ofNat (s.updates id) := by
  constructor
  · intro hs id h hid
    apply UInt64.toNat_inj.mp
    rw [hs id h hid, UInt64.toNat_ofNat']
  · intro hs id h hid
    rw [hs id h hid, UInt64.toNat_ofNat']

theorem histoCounted_new (types : List StatType) (histos : List HistoSpec) (size : Nat) :
    (new types histos size).HistoCounted := by
  intro id h hid
  have hid' : (histos.map Histogram.new)[id]? = some h := hid
  rw [getElem?_map, Option.map_eq_some_iff] at hid'
  obtain ⟨spec, -, rfl⟩ := hid'
  rw [Histogram.total_new]
  rfl

/-! ## The layout -/

theorem histoInv_new (types : List StatType) {histos : List HistoSpec}
    (hcreated : ∀ spec ∈ histos, spec.Created) (size : Nat) :
    (new types histos size).HistoInv := by
  intro h hh
  obtain ⟨spec, hspec, rfl⟩ := mem_map.mp hh
  exact ⟨hcreated spec hspec, length_replicate⟩

variable {e : StatEvent} {s' : StatServer}

theorem HistoInv.effect (h : s.HistoInv) (he : Effect types s e s') : s'.HistoInv := by
  cases he with
  | start =>
    intro k hk
    obtain ⟨k₀, hk₀, rfl⟩ := mem_map.mp hk
    exact ⟨(h k₀ hk₀).1, length_replicate⟩
  | unattached => simpa [HistoInv] using h
  | histo pid id value k k' hid hu =>
    intro j hj
    rcases mem_or_eq_of_mem_set hj with hj | rfl
    · exact h j hj
    · have hk := h k (mem_of_getElem? hid)
      obtain ⟨-, hheader, hlen⟩ := Histogram.total_update hu
      rw [hheader, hlen]
      exact hk
  | _ => exact h

/-! ## The counts -/

/-- Steps that leave the histograms and the record of their updates alone. -/
theorem HistoCounted.congr (harea : s'.queue.histoArea = s.queue.histoArea)
    (hupdates : s'.histoUpdates = s.histoUpdates) : s'.HistoCounted ↔ s.HistoCounted := by
  unfold HistoCounted updates
  rw [harea, hupdates]

/-- The histograms are touched by the start of a child and by updates only. -/
theorem Effect.histo_frame (he : Effect types s e s')
    (hstart : e ≠ .start) (hhisto : ∀ pid id value, e ≠ .histoUpdate pid id value) :
    s'.queue.histoArea = s.queue.histoArea ∧ s'.histoUpdates = s.histoUpdates := by
  cases he with
  | start => exact absurd rfl hstart
  | histo pid id value | histoFault pid id value => exact absurd rfl (hhisto pid id value)
  | unattached pid id n =>
    refine ⟨by rw [record_queue], ?_⟩
    unfold record
    split <;> rfl
  | update pid id n =>
    refine ⟨rfl, ?_⟩
    unfold record
    split <;> rfl
  | _ => exact ⟨rfl, rfl⟩

/-- The start of a child keeps the counts exactly if the bins it clears hold nothing. -/
theorem histoCounted_start_iff (hs : s.HistoCounted) :
    ({ s with queue := s.queue.attach.announceChild } : StatServer).HistoCounted ↔
      ∀ h ∈ s.queue.histoArea, h.bins.sum = 0 := by
  rw [histoCounted_iff] at hs ⊢
  have harea : ∀ id : Nat, (s.queue.attach.announceChild).histoArea[id]? =
      s.queue.histoArea[id]?.map Histogram.memInitialize := by
    intro id
    exact getElem?_map
  constructor
  · intro hnew h hh
    obtain ⟨id, hid⟩ := getElem?_of_mem hh
    have hafter := hnew id h.memInitialize (by rw [harea, hid]; rfl)
    have hbefore := hs id h hid
    -- the same number of updates before and after, with and without the bins
    have hsame : h.bins.sum + h.other = 0 + h.other := by
      calc h.bins.sum + h.other = UInt64.ofNat (s.updates id) := hbefore
        _ = h.memInitialize.total := hafter.symm
        _ = 0 + h.other := by rw [Histogram.total_memInitialize, UInt64.zero_add]
    exact add_right_cancel hsame
  · intro hzero id h hid
    rw [harea, Option.map_eq_some_iff] at hid
    obtain ⟨h₀, hid₀, rfl⟩ := hid
    calc h₀.memInitialize.total = h₀.other := Histogram.total_memInitialize h₀
      _ = h₀.bins.sum + h₀.other := by rw [hzero h₀ (mem_of_getElem? hid₀), UInt64.zero_add]
      _ = UInt64.ofNat (s.updates id) := hs id h₀ hid₀

theorem updates_cons (s : StatServer) (id j : Nat) : UInt64.ofNat ((id :: s.histoUpdates).count j) =
      UInt64.ofNat (s.updates j) + if j = id then 1 else 0 := by
  by_cases hj : j = id
  · subst hj
    rw [count_cons_self, if_pos rfl, UInt64.ofNat_add]
    rfl
  · rw [count_cons_of_ne (Ne.symm hj), if_neg hj, UInt64.add_zero]
    rfl

/-- An update inside a histogram is counted there and nowhere else. -/
theorem HistoCounted.histo (hs : s.HistoCounted) {id : Nat} {h h' : Histogram} {value : UInt64}
    (hid : s.queue.histoArea[id]? = some h) (hu : h.update value = some h') :
    ({ s with
        queue := { s.queue with histoArea := s.queue.histoArea.set id h' }
        histoUpdates := id :: s.histoUpdates } : StatServer).HistoCounted := by
  rw [histoCounted_iff] at hs ⊢
  intro j k hk
  have hk' : (s.queue.histoArea.set id h')[j]? = some k := hk
  show k.total = UInt64.ofNat ((id :: s.histoUpdates).count j)
  rw [updates_cons]
  by_cases hj : j = id
  · subst hj
    rw [getElem?_set_self (List.getElem?_eq_some_iff.mp hid).1] at hk'
    cases hk'
    rw [if_pos rfl, (Histogram.total_update hu).1, hs j h hid]
  · rw [getElem?_set_ne (Ne.symm hj)] at hk'
    rw [if_neg hj, UInt64.add_zero, hs j k hk']

/-- An update that leaves the histogram is counted nowhere. -/
theorem HistoCounted.histoFault (hs : s.HistoCounted) {id : Nat} {h : Histogram}
    (hid : s.queue.histoArea[id]? = some h) :
    ¬ ({ s with histoUpdates := id :: s.histoUpdates, halted := some .memory } :
      StatServer).HistoCounted := by
  rw [histoCounted_iff] at hs ⊢
  intro hnew
  have hafter : h.total = UInt64.ofNat ((id :: s.histoUpdates).count id) := hnew id h hid
  rw [updates_cons, if_pos rfl, ← hs id h hid] at hafter
  have hone : (1 : UInt64) = 0 := by
    apply add_left_cancel (a := h.total)
    rw [← hafter, UInt64.add_zero]
  exact absurd hone (by decide)

/-- A call of `ci_stat_histo_update` keeps the counts exactly if it stays inside the histogram. -/
theorem histoCounted_histoStep_iff (hinv : s.HistoInv) (hs : s.HistoCounted) (pid id : Nat)
    (value : UInt64) : (s.histoStep pid id value).HistoCounted ↔
      ∀ i c h, s.queue.getChildData pid = some (i, c) → s.queue.histoArea[id]? = some h →
        c.exited = false → c.attached = true → h.header.pos value = none ∨ 0 < h.header.items := by
  unfold histoStep
  split
  · rename_i i c h hc hid
    split
    · -- the child is gone, or has not attached its block
      rename_i hidle
      refine ⟨fun _ j d k hd _ hexit hattached => ?_, fun _ => hs⟩
      rw [hc] at hd
      cases hd
      simp [hexit, hattached] at hidle
    rename_i hbusy
    have hh := hinv h (mem_of_getElem? hid)
    have hsome := Histogram.update_isSome_iff hh.1 hh.2 value
    split
    · rename_i h' hu
      refine ⟨fun _ j d k _ hk _ _ => ?_, fun _ => hs.histo hid hu⟩
      rw [hid] at hk
      cases hk
      exact hsome.mp (by rw [hu]; rfl)
    · rename_i hu
      refine ⟨fun hnew => absurd hnew (hs.histoFault hid), fun hkept => ?_⟩
      simp only [Bool.or_eq_true, not_or, Bool.not_eq_true, Bool.not_eq_false'] at hbusy
      have := hsome.mpr (hkept i c h hc hid hbusy.1 hbusy.2)
      rw [hu] at this
      cases this
  · -- no such child or no such histogram
    rename_i hnone
    exact ⟨fun _ i c h hc hid => absurd hid (hnone i c h hc), fun _ => hs⟩

theorem HistoCounted.step_other (hs : s.HistoCounted) (hstart : e ≠ .start)
    (hhisto : ∀ pid id value, e ≠ .histoUpdate pid id value) : (step types s e).HistoCounted := by
  obtain ⟨harea, hupdates⟩ := (effect_step types s e).histo_frame hstart hhisto
  exact (HistoCounted.congr harea hupdates).mpr hs

/-- A step keeps the counts exactly if it meets the condition. -/
theorem histoCounted_step_iff (hinv : s.HistoInv) (hs : s.HistoCounted) (e : StatEvent) :
    (step types s e).HistoCounted ↔ s.Kept e := by
  by_cases hhalt : s.halted = none
  · have hlive : ¬ s.halted.isSome = true := by simp [hhalt]
    cases e with
    | start =>
      have hstep : step types s .start = { s with queue := s.queue.attach.announceChild } := by
        unfold step
        rw [if_neg hlive]
      rw [hstep, histoCounted_start_iff hs]
      exact ⟨fun h _ => h, fun h => h hhalt⟩
    | histoUpdate pid id value =>
      have hstep : step types s (.histoUpdate pid id value) = s.histoStep pid id value := by
        unfold step
        rw [if_neg hlive]
      rw [hstep, histoCounted_histoStep_iff hinv hs]
      exact ⟨fun h _ => h, fun h => h hhalt⟩
    | _ =>
      exact ⟨fun _ _ => trivial,
        fun _ => hs.step_other (fun h => nomatch h) fun _ _ _ h => nomatch h⟩
  · have hstep : step types s e = s := by
      unfold step
      rw [if_pos (Option.isSome_iff_ne_none.mpr hhalt)]
    rw [hstep]
    exact ⟨fun _ h => absurd h hhalt, fun _ => hs⟩

/-- **The histograms of the server.** For registered histograms, after every part of a run the bins
and the bin `other` of each histogram add up to the number of its updates, as a 64 bit number,
exactly if every child starts while nothing is counted in the bins and no update goes to a bin of
a histogram without bins. -/
theorem histo_total_iff (types : List StatType) (histos : List HistoSpec)
    (hcreated : ∀ spec ∈ histos, spec.Created) (size : Nat) (es : List StatEvent) :
    (∀ n, (Machine.run (step types) (new types histos size) (es.take n)).HistoCounted) ↔
      Machine.AllSteps (step types) Kept (new types histos size) es :=
  Machine.always_iff (I := HistoInv) (P := HistoCounted)
    (fun s e hs _ _ => hs.effect (effect_step types s e))
    (fun _ e hinv hs => histoCounted_step_iff hinv hs e)
    (histoInv_new types hcreated size) (histoCounted_new types histos size) es

/-- One child attaches its block and updates a histogram of four values. -/
def oneUpdate : List StatEvent := [.start, .register 5, .attach 5, .histoUpdate 5 0 2]

theorem histo_total_iff_one :
    (∀ n, (Machine.run (step []) (new [] [.createEnum 4] 2) (oneUpdate.take n)).HistoCounted) ↔
      Machine.AllSteps (step []) Kept (new [] [.createEnum 4] 2) oneUpdate :=
  histo_total_iff [] [.createEnum 4] (by
    intro spec hspec
    rw [mem_singleton.mp hspec]
    exact .enum 4) 2 oneUpdate

/-- A second child starts and the update of the first one is gone. -/
theorem histo_total_lost :
    let s := Machine.run (step []) (new [] [.createEnum 4] 2) (oneUpdate ++ [.start])
    s.queue.histoArea.map Histogram.total = [0] ∧ s.updates 0 = 1 := by
  decide +kernel

end StatServer

end CIcap
