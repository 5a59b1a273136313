import CIcap.Stats.Effect

/-! # The counters of all children together

The global value of a counter is read off the history and the blocks of the running children. It is
the total of all increments as long as each block is counted once: `Conserved` says that the history
and the blocks that have an owner add up to what the children have counted.

The source leaves three gaps. The parent adds the block of a child that is gone to the history
without asking whether that child ever initialised it, so the block of the owner before it is added
again, or the assertion on a block that is still zero ends the parent. A child that has its slot
but not yet its block is counted with the block of the owner before it. And a child that is
marked to be killed is not counted until it is gone. `Counted` and `Settled` exclude these.
-/

namespace CIcap

open List

/-- What a slot holds of a counter that its owner has counted. -/
def ChildSlot.owned (c : ChildSlot) (id : Nat) : UInt64 :=
  if c.pid ≠ 0 ∧ c.attached = true then c.stats.getCounter id else 0

namespace StatServer

variable {types : List StatType} {s : StatServer}

/-- The history and the blocks with an owner hold all increments. -/
def Conserved (types : List StatType) (s : StatServer) : Prop :=
  ∀ (id : Nat) (t : StatType), types[id]? = some t → t.isMean = false →
    UInt64.ofNat (s.made id) =
      s.queue.statsHistory.getCounter id + (s.queue.slots.map (·.owned id)).sum

/-- The condition on a step: a child counts in entries that exist and after it has attached its
block, and a child that the parent removes had attached its block. -/
def Counted (types : List StatType) (s : StatServer) : StatEvent → Prop
  | .update pid id _ =>
    id < types.length ∧ (s.queue.getChildData pid).all (fun p => p.2.exited || p.2.attached)
  | .reap pid _ => (s.queue.getChildData pid).all fun p => !p.2.exited || p.2.attached
  | _ => True

instance (types : List StatType) (s : StatServer) (e : StatEvent) :
    Decidable (Counted types s e) := by
  cases e <;> unfold Counted <;> infer_instance

/-- Every child that has a slot has attached its block and is not marked to be killed. -/
def Settled (s : StatServer) : Prop :=
  ∀ c ∈ s.queue.slots, c.pid ≠ 0 → c.attached = true ∧ c.toBeKilled = .noKill

instance (s : StatServer) : Decidable s.Settled :=
  inferInstanceAs (Decidable (∀ c ∈ s.queue.slots, _))

/-! ## Sums over the slots -/

/-- Replacing one element of a list changes a sum over the list by that element. -/
theorem sum_map_set {α : Type*} (f : α → UInt64) {l : List α} {i : Nat} {a : α}
    (hi : l[i]? = some a) (b : α) : ((l.set i b).map f).sum + f a = (l.map f).sum + f b := by
  induction l generalizing i with
  | nil => simp at hi
  | cons x xs ih =>
    cases i with
    | zero =>
      simp only [getElem?_cons_zero, Option.some.injEq] at hi
      subst hi
      simp only [set_cons_zero, map_cons, sum_cons]
      ac_rfl
    | succ i =>
      have hrest := ih (by simpa using hi)
      calc f x + ((xs.set i b).map f).sum + f a
          = f x + (((xs.set i b).map f).sum + f a) := by ac_rfl
        _ = f x + ((xs.map f).sum + f b) := by rw [hrest]
        _ = f x + (xs.map f).sum + f b := by ac_rfl

/-! ## The record of the increments -/

theorem made_record {id j : Nat} {t : StatType} (ht : types[j]? = some t) (hmean : t.isMean = false)
    (n : UInt64) : UInt64.ofNat ((s.record types id n).made j) =
      UInt64.ofNat (s.made j) + if j = id then n else 0 := by
  have hcons : ∀ incs : List (Nat × UInt64), s.increments = incs →
      UInt64.ofNat ((((id, n) :: incs).filter fun p => p.1 == j).map fun p => p.2.toNat).sum =
        UInt64.ofNat (s.made j) + if j = id then n else 0 := by
    intro incs hincs
    rw [made, hincs]
    by_cases hj : j = id
    · subst hj
      rw [filter_cons_of_pos (by simp), map_cons, sum_cons, if_pos rfl,
        UInt64.ofNat_add, UInt64.ofNat_toNat, UInt64.add_comm]
    · rw [filter_cons_of_neg (by simpa using Ne.symm hj), if_neg hj, UInt64.add_zero]
  unfold record
  split
  · exact hcons _ rfl
  · exact hcons _ rfl
  all_goals
    rename_i hid
    have hj : j ≠ id := by
      rintro rfl
      rw [hid] at ht
      cases ht
      try cases hmean
    rw [if_neg hj, UInt64.add_zero]

/-! ## Conservation -/

theorem conserved_new (types : List StatType) (histos : List HistoSpec) (size : Nat) :
    Conserved types (new types histos size) := by
  intro id t _ _
  have hsum : ∀ n, ((replicate n
      (⟨0, .noKill, 0, .zeros types.length, false, false⟩ : ChildSlot)).map (·.owned id)).sum = 0 := by
    intro n
    rw [map_replicate]
    exact Histogram.sum_replicate_zero n
  show UInt64.ofNat 0 = (MemBlock.init types).getCounter id + _
  rw [MemBlock.getCounter_init]
  exact (congrArg (0 + ·) (hsum size)).symm

section

variable (h : Conserved types s)
include h

/-- A change of a slot that keeps what the slot owns keeps the counts. -/
theorem Conserved.setSlot {i : Nat} {c c' : ChildSlot}
    (hi : s.queue.slots[i]? = some c) (howned : ∀ id, c'.owned id = c.owned id) :
    Conserved types { s with queue := s.queue.setSlot i c' } := by
  intro id t ht hmean
  have hsum := sum_map_set (·.owned id) hi c'
  simp only [howned id] at hsum
  have := h id t ht hmean
  rw [← add_right_cancel hsum] at this
  exact this

/-- A child that owns its block adds to a counter of it. -/
theorem Conserved.update (hinv : Inv types s) {id i : Nat} {n : UInt64}
    {c : ChildSlot} {b : MemBlock} (hi : s.queue.slots[i]? = some c) (hpid : c.pid ≠ 0)
    (hattached : c.attached = true) (hb : c.stats.update types id n = some b)
    (hid : id < types.length) :
    Conserved types
      { s.record types id n with queue := s.queue.setSlot i { c with stats := b } } := by
  intro j t ht hmean
  have hready := hinv.attached c (mem_of_getElem? hi) hattached
  obtain ⟨d, hd, -, hval⟩ := hready.update (getElem?_eq_getElem hid) n
  rw [hb] at hd
  cases hd
  have hnew : ({ c with stats := b } : ChildSlot).owned j = b.getCounter j := by
    rw [ChildSlot.owned, if_pos ⟨hpid, hattached⟩]
  have hold : c.owned j = c.stats.getCounter j := by
    rw [ChildSlot.owned, if_pos ⟨hpid, hattached⟩]
  -- the entry is a counter, so the block has grown by what was recorded
  have hgrown : b.getCounter j = c.stats.getCounter j + if j = id then n else 0 := by
    rw [hval j]
    by_cases hj : j = id
    · subst hj
      have htype : types[j] = t := by
        rw [getElem?_eq_getElem hid] at ht
        exact Option.some.inj ht
      rw [if_pos rfl, if_pos rfl, htype, hmean]
      rfl
    · rw [if_neg hj, if_neg hj, UInt64.add_zero]
  have hset := sum_map_set (·.owned j) hi { c with stats := b }
  rw [hnew, hold, hgrown] at hset
  have hsum : ((s.queue.slots.set i { c with stats := b }).map (·.owned j)).sum =
      (s.queue.slots.map (·.owned j)).sum + if j = id then n else 0 := by
    apply add_right_cancel
    calc ((s.queue.slots.set i { c with stats := b }).map (·.owned j)).sum + c.stats.getCounter j
        = (s.queue.slots.map (·.owned j)).sum +
            (c.stats.getCounter j + if j = id then n else 0) := hset
      _ = (s.queue.slots.map (·.owned j)).sum + (if j = id then n else 0) +
            c.stats.getCounter j := by ac_rfl
  calc UInt64.ofNat ((s.record types id n).made j)
      = UInt64.ofNat (s.made j) + if j = id then n else 0 := made_record ht hmean n
    _ = s.queue.statsHistory.getCounter j + (s.queue.slots.map (·.owned j)).sum +
          if j = id then n else 0 := by rw [h j t ht hmean]
    _ = s.queue.statsHistory.getCounter j + ((s.queue.slots.map (·.owned j)).sum +
          if j = id then n else 0) := by ac_rfl
    _ = _ := by rw [← hsum]; rfl

/-- The block of a child moves into the history when the child is removed. -/
theorem Conserved.removed (hinv : Inv types s) {i : Nat} {c : ChildSlot}
    {history : MemBlock} (hi : s.queue.slots[i]? = some c) (hpid : c.pid ≠ 0)
    (hattached : c.attached = true)
    (hm : s.queue.statsHistory.merge types c.stats true s.queue.srvStats.closedChilds =
      some history) (status : Bool) :
    Conserved types { s with queue := s.queue.removed i c history status } := by
  intro id t ht hmean
  obtain ⟨-, -, hval⟩ := merge_history hinv.history (hinv.blocks c (mem_of_getElem? hi)) hm
  have hhist := hval id t ht
  rw [if_neg (by simp [hmean])] at hhist
  have hold : c.owned id = c.stats.getCounter id := by
    rw [ChildSlot.owned, if_pos ⟨hpid, hattached⟩]
  have hset := sum_map_set (·.owned id) hi { c with pid := 0 }
  have hnew : ({ c with pid := 0 } : ChildSlot).owned id = 0 := rfl
  rw [hnew, hold, UInt64.add_zero] at hset
  calc UInt64.ofNat (s.made id)
      = s.queue.statsHistory.getCounter id + (s.queue.slots.map (·.owned id)).sum := h id t ht hmean
    _ = s.queue.statsHistory.getCounter id +
          (((s.queue.slots.set i { c with pid := 0 }).map (·.owned id)).sum +
            c.stats.getCounter id) := by rw [hset]
    _ = s.queue.statsHistory.getCounter id + c.stats.getCounter id +
          ((s.queue.slots.set i { c with pid := 0 }).map (·.owned id)).sum := by ac_rfl
    _ = _ := by rw [← hhist]; rfl

end

/-- What holds along the runs whose steps are all counted. -/
structure Sound (types : List StatType) (s : StatServer) : Prop where
  inv : Inv types s
  conserved : Conserved types s
  alive : s.halted ≠ some .abort

theorem Sound.effect (h : Sound types s) {e : StatEvent} {s' : StatServer}
    (he : Effect types s e s') (hok : Counted types s e) : Sound types s' := by
  refine ⟨h.inv.effect he, ?_, ?_⟩
  · -- the counts
    cases he with
    | nothing | start => exact h.conserved
    | register pid i c hi hfree =>
      apply h.conserved.setSlot hi
      simp [ChildSlot.owned, hfree]
    | attach pid i c hi hnew =>
      apply h.conserved.setSlot hi
      simp [ChildSlot.owned, hnew, MemBlock.getCounter_init]
    | quiet e i c c' hi hpid hstats hattached =>
      apply h.conserved.setSlot hi
      intro id
      rw [ChildSlot.owned, hpid, hstats, hattached, ChildSlot.owned]
    | unattached pid id n i c hc hlive hnew =>
      -- excluded: this child counts before it has a block
      have := hok.2
      simp [hc, hnew, hlive] at this
    | update pid id n i c b hc hattached hb =>
      obtain ⟨hne, hi, hpid⟩ := ChildsQueue.getChildData_eq_some hc
      exact h.conserved.update h.inv hi (by rw [hpid]; exact hne) hattached hb hok.1
    | updateFault | histo | histoFault => exact h.conserved
    | reap pid status i c history hc hexit hm =>
      obtain ⟨hne, hi, hpid⟩ := ChildsQueue.getChildData_eq_some hc
      have hattached : c.attached = true := by simpa [Counted, hc, hexit] using hok
      exact h.conserved.removed h.inv hi (by rw [hpid]; exact hne) hattached hm status
    | reapAbort => exact h.conserved
  · -- the parent
    cases he with
    | unattached | update => simpa using h.alive
    | updateFault | histoFault => exact fun hc => nomatch hc
    | reapAbort pid status i c hc hexit hm =>
      -- the block of an attached child passes every assertion
      obtain ⟨-, hi, -⟩ := ChildsQueue.getChildData_eq_some hc
      have hattached : c.attached = true := by simpa [Counted, hc, hexit] using hok
      have hready := h.inv.attached c (mem_of_getElem? hi) hattached
      rcases hm with hm | hm
      · rw [hready.check] at hm
        cases hm
      · obtain ⟨d, hd, -⟩ := h.inv.history.merge hready true s.queue.srvStats.closedChilds
        rw [hm] at hd
        cases hd
    | _ => exact h.alive

theorem sound_run (types : List StatType) (histos : List HistoSpec) (size : Nat)
    {es : List StatEvent}
    (hok : Machine.AllSteps (step types) (Counted types) (new types histos size) es) :
    Sound types (Machine.run (step types) (new types histos size) es) := by
  refine Machine.run_inv (P := Sound types) ?_ ?_ hok
  · intro s e hs he
    exact hs.effect (effect_step types s e) he
  · exact ⟨inv_new types histos size, conserved_new types histos size, fun h => nomatch h⟩

end StatServer

/-! ## The global value of a counter -/

namespace ChildsQueue

theorem uint64CountersSum_eq (q : ChildsQueue) (id : Nat) : q.uint64CountersSum id =
      ((q.running.map fun c => c.stats.getCounter id).sum, q.running.length) := by
  have hfold : ∀ (l : List ChildSlot) (v : UInt64) (k : Nat),
      l.foldl (fun acc c => (acc.1 + c.stats.getCounter id, acc.2 + 1)) (v, k) =
        (v + (l.map fun c => c.stats.getCounter id).sum, k + l.length) := by
    intro l
    induction l with
    | nil =>
      intro v k
      exact Prod.ext (UInt64.add_zero v).symm rfl
    | cons c cs ih =>
      intro v k
      rw [foldl_cons, ih, length_cons]
      apply Prod.ext
      · show v + c.stats.getCounter id + _ = v + (c.stats.getCounter id + _)
        ac_rfl
      · omega
  rw [uint64CountersSum, hfold, UInt64.zero_add, Nat.zero_add]

/-- Of a counter the global value is the sum over the running children and the history. -/
theorem uint64GetGlobal_counter {types : List StatType} (q : ChildsQueue) {id : Nat} {t : StatType}
    (ht : types[id]? = some t) (hmean : t.isMean = false) :
    q.uint64GetGlobal types id =
      some ((q.running.map fun c => c.stats.getCounter id).sum + q.statsHistory.getCounter id) := by
  unfold uint64GetGlobal
  rw [uint64CountersSum_eq, ht]
  cases t <;> first | rfl | cases hmean

end ChildsQueue

namespace StatServer

/-- In a settled state the reports look at exactly the blocks that have an owner. -/
theorem Settled.sum_running {s : StatServer} (h : s.Settled) (id : Nat) :
    (s.queue.running.map fun c => c.stats.getCounter id).sum =
      (s.queue.slots.map (·.owned id)).sum := by
  unfold ChildsQueue.running
  have hall : ∀ c ∈ s.queue.slots, c.pid ≠ 0 → c.attached = true ∧ c.toBeKilled = .noKill := h
  generalize s.queue.slots = slots at hall ⊢
  induction slots with
  | nil => rfl
  | cons c cs ih =>
    have hrest := ih fun d hd => hall d (mem_cons_of_mem c hd)
    by_cases hpid : c.pid = 0
    · rw [filter_cons_of_neg (by simp [hpid]), hrest]
      simp [ChildSlot.owned, hpid]
    · have hc := hall c mem_cons_self hpid
      rw [filter_cons_of_pos (by simp [hpid, hc.2]), map_cons, map_cons,
        sum_cons, sum_cons, hrest, ChildSlot.owned, if_pos ⟨hpid, hc.1⟩]

/-- **The counters of the server.** In a run in which children count in blocks they have attached,
and only such children are removed, the parent never aborts. Whenever all children are settled the
global value of every counter is the total of all increments so far, as a 64 bit number. -/
theorem global_counter_total (types : List StatType) (histos : List HistoSpec) (size : Nat)
    (es : List StatEvent)
    (hrun : Machine.AllSteps (step types) (Counted types) (new types histos size) es) :
    let s := Machine.run (step types) (new types histos size) es
    s.halted ≠ some .abort ∧
      (s.Settled → ∀ (id : Nat) (t : StatType), types[id]? = some t → t.isMean = false →
        ∃ v, s.queue.uint64GetGlobal types id = some v ∧ v.toNat = s.made id % 2 ^ 64) := by
  intro s
  have hs : Sound types s := sound_run types histos size hrun
  refine ⟨hs.alive, ?_⟩
  intro hset id t ht hmean
  refine ⟨_, s.queue.uint64GetGlobal_counter ht hmean, ?_⟩
  have htotal := hs.conserved id t ht hmean
  rw [hset.sum_running, UInt64.add_comm, ← htotal, UInt64.toNat_ofNat']

/-- One child counts and is gone, another one counts in the slot after it. -/
def twoChilds : List StatEvent :=
  [.start, .register 5, .attach 5, .update 5 0 3, .exit 5, .reap 5 false,
    .start, .register 6, .attach 6, .update 6 0 4]

theorem global_counter_total_seven :
    ∃ v, (Machine.run (step [.int64]) (new [.int64] [] 1) twoChilds).queue.uint64GetGlobal
        [.int64] 0 = some v ∧
      v.toNat = (Machine.run (step [.int64]) (new [.int64] [] 1) twoChilds).made 0 % 2 ^ 64 :=
  (global_counter_total [.int64] [] 1 twoChilds (by decide +kernel)).2 (by decide +kernel)
    0 .int64 rfl rfl

/-- Without the conditions: a child that is gone before it attached its block ends the parent in a
fresh slot and doubles the counts of the owner before it in a used one, and the counts of a child
that is marked to be killed are missing. -/
theorem global_counter_lost : (Machine.run (step [.int64]) (new [.int64] [] 1)
      [.start, .register 5, .exit 5, .reap 5 true]).halted = some .abort ∧
    (let s := Machine.run (step [.int64]) (new [.int64] [] 1)
      [.start, .register 5, .attach 5, .update 5 0 3, .exit 5, .reap 5 false,
        .start, .register 6, .exit 6, .reap 6 true];
      s.queue.uint64GetGlobal [.int64] 0 = some 6 ∧ s.made 0 = 3) ∧
    (let s := Machine.run (step [.int64]) (new [.int64] [] 1)
      [.start, .register 5, .attach 5, .update 5 0 3, .mark 5 .gracefully];
      s.queue.uint64GetGlobal [.int64] 0 = some 0 ∧ s.made 0 = 3) := by
  decide +kernel

end StatServer

end CIcap
