import CIcap.Stats.Childs

/-! # What one step does to the shared memory

Every action of a process changes one slot, the histograms or nothing. `StatServer.Effect` lists
what can happen, with what is known of the slot before the step; the invariants of the later modules
are proved by cases over it.

The invariant of this module needs no assumption on the run: a block of the shared memory is either
still zero or was initialised for the registered entries, and the history holds no mean values.
-/

namespace CIcap

open List

namespace ChildsQueue

variable {q : ChildsQueue} {pid i : Nat} {c : ChildSlot}

theorem getChildData_eq_some (h : q.getChildData pid = some (i, c)) :
    pid ≠ 0 ∧ q.slots[i]? = some c ∧ c.pid = pid := by
  unfold getChildData at h
  split at h
  · cases h
  rename_i hpid
  cases hf : q.slots.findIdx? (·.pid == pid) with
  | none => simp [hf] at h
  | some j =>
    obtain ⟨hj, hp, _⟩ := findIdx?_eq_some_iff_getElem.mp hf
    simp only [hf, getElem?_eq_getElem hj, Option.bind_eq_bind, Option.bind_some] at h
    obtain ⟨rfl, rfl⟩ := h
    exact ⟨hpid, getElem?_eq_getElem hj, by simpa using hp⟩

theorem registerChild_eq_some {q' : ChildsQueue} (h : q.registerChild pid = some q') :
    ∃ i c, q.slots[i]? = some c ∧ c.pid = 0 ∧
      q' = q.setSlot i ⟨pid, .noKill, 0, c.stats, false, false⟩ := by
  unfold registerChild at h
  cases hf : q.slots.findIdx? (·.pid == 0) with
  | none => simp [hf] at h
  | some j =>
    obtain ⟨hlt, hp, _⟩ := findIdx?_eq_some_iff_getElem.mp hf
    simp only [hf, getElem?_eq_getElem hlt, Option.bind_eq_bind, Option.bind_some,
      Option.pure_def, Option.some.injEq] at h
    exact ⟨j, _, getElem?_eq_getElem hlt, by simpa using hp, h.symm⟩

/-- The queue after a child was removed and its block went into `history`. -/
def removed (q : ChildsQueue) (i : Nat) (c : ChildSlot) (history : MemBlock) (status : Bool) :
    ChildsQueue :=
  { q.setSlot i { c with pid := 0 } with
    statsHistory := history
    srvStats := { q.srvStats with
      historyRequests := q.srvStats.historyRequests + c.requests
      closedChilds := q.srvStats.closedChilds + 1
      crashedChilds := q.srvStats.crashedChilds + if status then 1 else 0 } }

end ChildsQueue

namespace StatServer

/-- What an event can do to the server. -/
inductive Effect (types : List StatType) (s : StatServer) : StatEvent → StatServer → Prop
  | nothing (e : StatEvent) : Effect types s e s
  | start : Effect types s .start { s with queue := s.queue.attach.announceChild }
  | register (pid i : Nat) (c : ChildSlot) (hi : s.queue.slots[i]? = some c) (hfree : c.pid = 0) :
      Effect types s (.register pid)
        { s with queue := s.queue.setSlot i ⟨pid, .noKill, 0, c.stats, false, false⟩ }
  | attach (pid i : Nat) (c : ChildSlot) (hi : s.queue.slots[i]? = some c)
      (hnew : c.attached = false) :
      Effect types s (.attach pid)
        { s with queue := s.queue.setSlot i { c with stats := .init types, attached := true } }
  /-- The slot changes, but neither its owner nor its block. -/
  | quiet (e : StatEvent) (i : Nat) (c c' : ChildSlot) (hi : s.queue.slots[i]? = some c)
      (hpid : c'.pid = c.pid) (hstats : c'.stats = c.stats) (hattached : c'.attached = c.attached) :
      Effect types s e { s with queue := s.queue.setSlot i c' }
  /-- A child that has no block yet changes a value. -/
  | unattached (pid id : Nat) (n : UInt64) (i : Nat) (c : ChildSlot)
      (hc : s.queue.getChildData pid = some (i, c)) (hlive : c.exited = false)
      (hnew : c.attached = false) :
      Effect types s (.update pid id n) (s.record types id n)
  | update (pid id : Nat) (n : UInt64) (i : Nat) (c : ChildSlot) (b : MemBlock)
      (hc : s.queue.getChildData pid = some (i, c)) (hattached : c.attached = true)
      (hb : c.stats.update types id n = some b) :
      Effect types s (.update pid id n)
        { s.record types id n with queue := s.queue.setSlot i { c with stats := b } }
  | updateFault (pid id : Nat) (n : UInt64) (i : Nat) (c : ChildSlot)
      (hc : s.queue.getChildData pid = some (i, c)) (hb : c.stats.update types id n = none) :
      Effect types s (.update pid id n) { s with halted := some .memory }
  | histo (pid id : Nat) (value : UInt64) (h h' : Histogram)
      (hid : s.queue.histoArea[id]? = some h) (hu : h.update value = some h') :
      Effect types s (.histoUpdate pid id value)
        { s with
          queue := { s.queue with histoArea := s.queue.histoArea.set id h' }
          histoUpdates := id :: s.histoUpdates }
  | histoFault (pid id : Nat) (value : UInt64) (h : Histogram)
      (hid : s.queue.histoArea[id]? = some h) (hu : h.update value = none) :
      Effect types s (.histoUpdate pid id value)
        { s with histoUpdates := id :: s.histoUpdates, halted := some .memory }
  | reap (pid : Nat) (status : Bool) (i : Nat) (c : ChildSlot) (history : MemBlock)
      (hc : s.queue.getChildData pid = some (i, c)) (hexit : c.exited = true)
      (hm : s.queue.statsHistory.merge types c.stats true s.queue.srvStats.closedChilds =
        some history) :
      Effect types s (.reap pid status) { s with queue := s.queue.removed i c history status }
  | reapAbort (pid : Nat) (status : Bool) (i : Nat) (c : ChildSlot)
      (hc : s.queue.getChildData pid = some (i, c)) (hexit : c.exited = true)
      (hm : c.stats.check types = false ∨
        s.queue.statsHistory.merge types c.stats true s.queue.srvStats.closedChilds = none) :
      Effect types s (.reap pid status) { s with halted := some .abort }

variable {types : List StatType} {s : StatServer}

/-- The actions of a child on its slot that leave its owner and its block alone. -/
theorem effect_onSlot (e : StatEvent) (pid : Nat) (f : ChildSlot → ChildSlot)
    (hf : ∀ c, (f c).pid = c.pid ∧ (f c).stats = c.stats ∧ (f c).attached = c.attached) :
    Effect types s e (s.onSlot pid f) := by
  unfold onSlot
  split
  · rename_i i c hc
    split
    · exact .nothing e
    · obtain ⟨hpid, hstats, hattached⟩ := hf c
      exact .quiet e i c (f c) (ChildsQueue.getChildData_eq_some hc).2.1 hpid hstats hattached
  · exact .nothing e

theorem effect_attach (pid : Nat) : Effect types s (.attach pid) (s.onSlot pid fun c =>
      if c.attached then c else { c with stats := .init types, attached := true }) := by
  unfold onSlot
  split
  · rename_i i c hc
    split
    · exact .nothing _
    · have hi := (ChildsQueue.getChildData_eq_some hc).2.1
      dsimp only
      by_cases hattached : c.attached = true
      · rw [if_pos hattached]
        exact .quiet _ i c c hi rfl rfl rfl
      · rw [if_neg hattached]
        exact .attach pid i c hi (by simpa using hattached)
  · exact .nothing _

theorem effect_updateStep (pid id : Nat) (n : UInt64) :
    Effect types s (.update pid id n) (s.updateStep types pid id n) := by
  unfold updateStep
  split
  · rename_i i c hc
    split
    · exact .nothing _
    rename_i hlive
    split
    · rename_i hnew
      exact .unattached pid id n i c hc (by simpa using hlive) (by simpa using hnew)
    · rename_i hattached
      split
      · rename_i b hb
        exact .update pid id n i c b hc (by simpa using hattached) hb
      · rename_i hb
        exact .updateFault pid id n i c hc hb
  · exact .nothing _

theorem effect_histoStep (pid id : Nat) (value : UInt64) :
    Effect types s (.histoUpdate pid id value) (s.histoStep pid id value) := by
  unfold histoStep
  split
  · rename_i i c h hc hid
    split
    · exact .nothing _
    · split
      · rename_i h' hu
        exact .histo pid id value h h' hid hu
      · rename_i hu
        exact .histoFault pid id value h hid hu
  · exact .nothing _

theorem effect_reapStep (pid : Nat) (status : Bool) :
    Effect types s (.reap pid status) (s.reapStep types pid status) := by
  unfold reapStep
  split
  · rename_i i c hc
    split
    · rename_i hexit
      simp only [ChildsQueue.removeChild, hc]
      by_cases hcheck : c.stats.check types = true
      · rw [if_pos hcheck]
        cases hm : s.queue.statsHistory.merge types c.stats true s.queue.srvStats.closedChilds with
        | none => exact .reapAbort pid status i c hc hexit (.inr hm)
        | some history => exact .reap pid status i c history hc hexit hm
      · rw [if_neg hcheck]
        exact .reapAbort pid status i c hc hexit (.inl (by simpa using hcheck))
    · exact .nothing _
  · exact .nothing _

theorem effect_step (types : List StatType) (s : StatServer) (e : StatEvent) :
    Effect types s e (step types s e) := by
  unfold step
  split
  · exact .nothing e
  cases e with
  | start => exact .start
  | register pid =>
    simp only
    split
    · exact .nothing _
    · cases hr : s.queue.registerChild pid with
      | none => exact .nothing _
      | some q =>
        obtain ⟨i, c, hi, hfree, rfl⟩ := ChildsQueue.registerChild_eq_some hr
        exact .register pid i c hi hfree
  | attach pid => exact effect_attach pid
  | request pid => exact effect_onSlot _ pid _ fun c => ⟨rfl, rfl, rfl⟩
  | update pid id n => exact effect_updateStep pid id n
  | histoUpdate pid id value => exact effect_histoStep pid id value
  | mark pid mode | exit pid => exact effect_onSlot _ pid _ fun c => ⟨rfl, rfl, rfl⟩
  | reap pid status => exact effect_reapStep pid status

/-! ## The blocks of the shared memory -/

/-- A block of the shared memory is as it was created or initialised for the entries. -/
def BlockInv (types : List StatType) (b : MemBlock) : Prop :=
  b.Ready types ∨ b = .zeros types.length

/-- What holds of the shared memory in every run. -/
structure Inv (types : List StatType) (s : StatServer) : Prop where
  history : s.queue.statsHistory.Ready types
  blocks : ∀ c ∈ s.queue.slots, BlockInv types c.stats
  attached : ∀ c ∈ s.queue.slots, c.attached = true → c.stats.Ready types
  /-- Means are not added to the history. -/
  means : ∀ (id : Nat) (t : StatType), types[id]? = some t → t.isMean = true →
    s.queue.statsHistory.getCounter id = 0

theorem inv_new (types : List StatType) (histos : List HistoSpec) (size : Nat) :
    Inv types (new types histos size) where
  history := MemBlock.init_ready types
  blocks c hc := by
    rw [eq_of_mem_replicate hc]
    exact .inr rfl
  attached c hc h := by
    rw [eq_of_mem_replicate hc] at h
    cases h
  means id t _ _ := MemBlock.getCounter_init types id

/-- A change of one slot that keeps the block of the slot in order keeps the invariant. -/
theorem Inv.setSlot (h : Inv types s) (i : Nat) (c' : ChildSlot) (hb : BlockInv types c'.stats)
    (ha : c'.attached = true → c'.stats.Ready types) :
    Inv types { s with queue := s.queue.setSlot i c' } where
  history := h.history
  blocks c hc := by
    rcases mem_or_eq_of_mem_set hc with hc | rfl
    · exact h.blocks c hc
    · exact hb
  attached c hc := by
    rcases mem_or_eq_of_mem_set hc with hc | rfl
    · exact h.attached c hc
    · exact ha
  means := h.means

/-- An initialised block stays initialised when a value of it is changed. -/
theorem ready_of_update {b b' : MemBlock} (h : b.Ready types) {id : Nat} {n : UInt64}
    (hu : b.update types id n = some b') : b'.Ready types := by
  cases ht : types[id]? with
  | some t =>
    obtain ⟨d, hd, hready, _⟩ := h.update ht n
    rw [hu] at hd
    cases hd
    exact hready
  | none =>
    have hid : types.length ≤ id := getElem?_eq_none_iff.mp ht
    unfold MemBlock.update at hu
    split at hu
    · cases hu
      exact h
    · rename_i hlt
      rw [if_pos (by rw [h.count] at hlt ⊢; omega)] at hu
      cases hu

@[simp] theorem record_queue (s : StatServer) (id : Nat) (n : UInt64) :
    (s.record types id n).queue = s.queue := by
  unfold record
  split <;> rfl

@[simp] theorem record_halted (s : StatServer) (id : Nat) (n : UInt64) :
    (s.record types id n).halted = s.halted := by
  unfold record
  split <;> rfl

/-- The history after a merge: the counters grow, the means stay. -/
theorem merge_history {history b d : MemBlock} (hh : history.Ready types)
    (hb : BlockInv types b) {existing : Nat}
    (hm : history.merge types b true existing = some d) :
    b.Ready types ∧ d.Ready types ∧ ∀ (id : Nat) (t : StatType), types[id]? = some t →
      d.getCounter id =
        if t.isMean then history.getCounter id else history.getCounter id + b.getCounter id := by
  rcases hb with hb | rfl
  · obtain ⟨d', hd, hready, hval⟩ := hh.merge hb true existing
    rw [hm] at hd
    cases hd
    refine ⟨hb, hready, ?_⟩
    intro id t ht
    rw [hval id t ht]
    cases t <;> rfl
  · -- a block that nobody has initialised has no signature
    rw [MemBlock.merge_of_sig (show (0 : Nat) ≠ memblockSig by decide)] at hm
    cases hm

theorem Inv.effect (h : Inv types s) {e : StatEvent} {s' : StatServer}
    (he : Effect types s e s') : Inv types s' := by
  cases he with
  | nothing => exact h
  | start => exact { h with }
  | register pid i c hi hfree =>
    exact h.setSlot i _ (h.blocks c (mem_of_getElem? hi)) fun hc => nomatch hc
  | attach pid i c hi hnew =>
    exact h.setSlot i _ (.inl (MemBlock.init_ready types)) fun _ => MemBlock.init_ready types
  | quiet e i c c' hi hpid hstats hattached =>
    have hc := mem_of_getElem? hi
    apply h.setSlot i c'
    · rw [hstats]
      exact h.blocks c hc
    · rw [hstats, hattached]
      exact h.attached c hc
  | unattached pid id n i c hc hlive hnew =>
    constructor
    all_goals rw [record_queue]
    exacts [h.history, h.blocks, h.attached, h.means]
  | update pid id n i c b hc hattached hb =>
    have hi := (ChildsQueue.getChildData_eq_some hc).2.1
    have hready := ready_of_update (h.attached c (mem_of_getElem? hi) hattached) hb
    have hset := h.setSlot i { c with stats := b } (.inl hready) fun _ => hready
    exact { hset with }
  | updateFault | histo | histoFault => exact { h with }
  | reap pid status i c history hc hexit hm =>
    have hi := (ChildsQueue.getChildData_eq_some hc).2.1
    have hmem := mem_of_getElem? hi
    obtain ⟨hready, hhist, hval⟩ := merge_history h.history (h.blocks c hmem) hm
    have hset := h.setSlot i { c with pid := 0 } (.inl hready) fun _ => hready
    refine ⟨hhist, hset.blocks, hset.attached, ?_⟩
    intro id t ht hmean
    have := hval id t ht
    rw [if_pos hmean, h.means id t ht hmean] at this
    exact this
  | reapAbort => exact { h with }

theorem inv_run (types : List StatType) (histos : List HistoSpec) (size : Nat)
    (es : List StatEvent) : Inv types (Machine.run (step types) (new types histos size) es) :=
  Machine.run_inv_all (fun s e hs => hs.effect (effect_step types s e)) (inv_new types histos size) es

end StatServer

end CIcap
