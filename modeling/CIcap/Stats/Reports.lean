import CIcap.Stats.Totals

/-! # Two reports of one value

`ci_server_stat_uint64_get_global` adds the values of the running children up and divides once.
`ci_server_stat_get_all_stats` merges the blocks one after the other and keeps a running mean, and
for the means it leaves the children that are gone out. For counters the two agree as soon as the
blocks of the running children are initialised. For means they agree where no child is gone yet and
every running mean comes out even.
-/

namespace CIcap

open List

namespace ChildsQueue

variable {types : List StatType}

/-- What `ci_server_stat_get_all_stats` makes of the values of one entry, from the value `a` of
`kids` children on. -/
def mergeValues (t : StatType) : Nat → UInt64 → List UInt64 → UInt64
  | _, a, [] => a
  | kids, a, v :: vs => mergeValues t (kids + 1) (MemBlock.mergeEntry t false kids a v) vs

/-- The loop over the running children computes entry by entry. -/
theorem mergeRunning_spec {b : MemBlock} (hb : b.Ready types) (kids : Nat) {cs : List ChildSlot}
    (hcs : ∀ c ∈ cs, c.stats.Ready types) :
    ∃ d, mergeRunning types b kids cs = some d ∧ d.Ready types ∧
      ∀ (id : Nat) (t : StatType), types[id]? = some t → d.getCounter id =
          mergeValues t kids (b.getCounter id) (cs.map fun c => c.stats.getCounter id) := by
  induction cs generalizing b kids with
  | nil => exact ⟨b, rfl, hb, fun id t _ => rfl⟩
  | cons c cs ih =>
    obtain ⟨b', hb', hready, hval⟩ := hb.merge (hcs c mem_cons_self) false kids
    obtain ⟨d, hd, hdready, hdval⟩ := ih hready (kids + 1) fun e he => hcs e (mem_cons_of_mem c he)
    refine ⟨d, ?_, hdready, ?_⟩
    · simp only [mergeRunning, hb']
      exact hd
    · intro id t ht
      rw [hdval id t ht, hval id t ht]
      rfl

theorem mergeRunning_none {b : MemBlock} (kids : Nat) {cs : List ChildSlot} {c : ChildSlot}
    (hc : c ∈ cs) (hsig : c.stats.sig ≠ memblockSig) : mergeRunning types b kids cs = none := by
  induction cs generalizing b kids with
  | nil => cases hc
  | cons e cs ih =>
    rcases mem_cons.mp hc with rfl | hc
    · simp only [mergeRunning, MemBlock.merge_of_sig hsig, Option.bind_eq_bind, Option.bind_none]
    · cases hm : b.merge types e.stats false kids with
      | none => simp only [mergeRunning, hm, Option.bind_eq_bind, Option.bind_none]
      | some b' =>
        simp only [mergeRunning, hm]
        exact ih (kids + 1) hc

variable {t : StatType}

theorem mergeValues_counter (hmean : t.isMean = false) (kids : Nat) (a : UInt64)
    (vs : List UInt64) : mergeValues t kids a vs = a + vs.sum := by
  induction vs generalizing kids a with
  | nil => exact (UInt64.add_zero a).symm
  | cons v vs ih =>
    have hentry : MemBlock.mergeEntry t false kids a v = a + v := by
      cases t <;> first | rfl | cases hmean
    rw [mergeValues, ih, hentry, sum_cons]
    ac_rfl

/-! ## Running means -/

/-- Each mean over a proper part of the values comes out even, and the sum does not wrap around. -/
def EvenMeans (vs : List UInt64) : Prop :=
  (∀ k < vs.length, k ∣ ((vs.take k).map UInt64.toNat).sum) ∧ (vs.map UInt64.toNat).sum < 2 ^ 64

instance (vs : List UInt64) : Decidable (EvenMeans vs) :=
  inferInstanceAs (Decidable (_ ∧ _))

/-- One step of the running mean, when the mean so far stands for its sum. -/
theorem mergeEntry_mean (hmean : t.isMean = true) {kids total : Nat} {a v : UInt64}
    (ha : a.toNat = total / kids) (hdvd : kids ∣ total) (hsmall : total + v.toNat < 2 ^ 64) :
    (MemBlock.mergeEntry t false kids a v).toNat = (total + v.toNat) / (kids + 1) := by
  have hmul : kids * (total / kids) = total := Nat.mul_div_cancel' hdvd
  have hsum : (UInt64.ofNat kids * a + v).toNat = total + v.toNat := by
    have hcast : UInt64.ofNat kids * a = UInt64.ofNat total := by
      calc UInt64.ofNat kids * a = UInt64.ofNat kids * UInt64.ofNat (total / kids) := by
            rw [← ha, UInt64.ofNat_toNat]
        _ = UInt64.ofNat (kids * (total / kids)) := (UInt64.ofNat_mul _ _).symm
        _ = UInt64.ofNat total := by rw [hmul]
    rw [hcast, UInt64.toNat_add, UInt64.toNat_ofNat', Nat.mod_eq_of_lt (by omega : total < 2 ^ 64),
      Nat.mod_eq_of_lt hsmall]
  have hentry : MemBlock.mergeEntry t false kids a v =
      UInt64.ofNat ((UInt64.ofNat kids * a + v).toNat / (kids + 1)) := by
    cases t <;> first | rfl | cases hmean
  have hle : (total + v.toNat) / (kids + 1) ≤ total + v.toNat := Nat.div_le_self _ _
  rw [hentry, hsum, UInt64.toNat_ofNat', Nat.mod_eq_of_lt (by omega)]

/-- The running mean over values whose means come out even is the mean of all. -/
theorem mergeValues_mean (hmean : t.isMean = true) (done vs : List UInt64)
    (heven : EvenMeans (done ++ vs)) {a : UInt64}
    (ha : a.toNat = (done.map UInt64.toNat).sum / done.length) :
    (mergeValues t done.length a vs).toNat =
      ((done ++ vs).map UInt64.toNat).sum / (done ++ vs).length := by
  induction vs generalizing done a with
  | nil => simpa [mergeValues] using ha
  | cons v vs ih =>
    have hdvd := heven.1 done.length (by simp)
    rw [take_left] at hdvd
    have hsmall : (done.map UInt64.toNat).sum + v.toNat < 2 ^ 64 := by
      have := heven.2
      simp only [map_append, map_cons, sum_append, sum_cons] at this
      omega
    have hstep := mergeEntry_mean hmean ha hdvd hsmall
    have hnext := ih (done ++ [v]) (by simpa using heven)
      (a := MemBlock.mergeEntry t false done.length a v) (by simpa using hstep)
    simpa [mergeValues] using hnext

/-! ## The two reports -/

/-- The values of an entry in the blocks of the running children. -/
def runningValues (q : ChildsQueue) (id : Nat) : List UInt64 :=
  q.running.map fun c => c.stats.getCounter id

/-- Both reports are there and give the same value. -/
def ReportsAgree (types : List StatType) (q : ChildsQueue) (id : Nat) : Prop :=
  ∃ v b, q.uint64GetGlobal types id = some v ∧ q.getAllStats types = some b ∧ b.getCounter id = v

/-- The blocks of all running children have been initialised, by them or by an owner before. -/
def Initialised (q : ChildsQueue) : Prop :=
  ∀ c ∈ q.running, c.stats.sig = memblockSig

instance (q : ChildsQueue) : Decidable q.Initialised :=
  inferInstanceAs (Decidable (∀ c ∈ q.running, _))

theorem uint64GetGlobal_mean (q : ChildsQueue) {id : Nat} (ht : types[id]? = some t)
    (hmean : t.isMean = true) (hhist : q.statsHistory.getCounter id = 0)
    (hkids : q.running.length + q.srvStats.closedChilds ≠ 0) :
    q.uint64GetGlobal types id = some (UInt64.ofNat
      ((q.runningValues id).sum.toNat / (q.running.length + q.srvStats.closedChilds))) := by
  have hsum : (q.runningValues id).sum + 0 * UInt64.ofNat q.srvStats.closedChilds =
      (q.runningValues id).sum := by
    rw [UInt64.zero_mul, UInt64.add_zero]
  unfold uint64GetGlobal
  rw [uint64CountersSum_eq, ht, hhist]
  cases t
  case int64 => cases hmean
  case kbs => cases hmean
  all_goals
    simp only [if_neg hkids]
    exact congrArg (fun x : UInt64 => some (UInt64.ofNat (x.toNat / _))) hsum

theorem toNat_sum {vs : List UInt64} (h : (vs.map UInt64.toNat).sum < 2 ^ 64) :
    vs.sum.toNat = (vs.map UInt64.toNat).sum := by
  induction vs with
  | nil => rfl
  | cons v vs ih =>
    rw [map_cons, sum_cons] at h
    have hrest := ih (by omega)
    rw [sum_cons, UInt64.toNat_add, hrest, map_cons, sum_cons, Nat.mod_eq_of_lt h]

/-- The second report with initialised blocks, entry by entry. -/
theorem getAllStats_spec {q : ChildsQueue} (hhist : q.statsHistory.Ready types)
    (hready : ∀ c ∈ q.running, c.stats.Ready types) :
    ∃ b, q.getAllStats types = some b ∧ ∀ (id : Nat) (t : StatType), types[id]? = some t →
      b.getCounter id = MemBlock.mergeEntry t true q.running.length
        (mergeValues t 0 0 (q.runningValues id)) (q.statsHistory.getCounter id) := by
  obtain ⟨d, hd, hdready, hdval⟩ := mergeRunning_spec (MemBlock.init_ready types) 0 hready
  obtain ⟨b, hb, -, hbval⟩ := hdready.merge hhist true q.running.length
  refine ⟨b, ?_, ?_⟩
  · simp only [getAllStats, hd]
    exact hb
  · intro id t ht
    rw [hbval id t ht, hdval id t ht, MemBlock.getCounter_init]
    rfl

end ChildsQueue

namespace StatServer

open ChildsQueue

variable {types : List StatType} {s : StatServer}

/-- In the states of a run a signature stands for an initialised block. -/
theorem Inv.ready (h : Inv types s) (hinit : s.queue.Initialised) :
    ∀ c ∈ s.queue.running, c.stats.Ready types := by
  intro c hc
  rcases h.blocks c (mem_filter.mp hc).1 with hready | hzero
  · exact hready
  · have hsig := hinit c hc
    rw [hzero] at hsig
    exact absurd hsig (show (0 : Nat) ≠ memblockSig by decide)

theorem Inv.counter_reports (h : Inv types s) {id : Nat} {t : StatType} (ht : types[id]? = some t)
    (hmean : t.isMean = false) : ReportsAgree types s.queue id ↔ s.queue.Initialised := by
  constructor
  · rintro ⟨v, b, -, hall, -⟩ c hc
    by_contra hsig
    rw [getAllStats, mergeRunning_none 0 hc hsig] at hall
    cases hall
  · intro hinit
    obtain ⟨b, hb, hval⟩ := getAllStats_spec h.history (h.ready hinit)
    refine ⟨_, b, uint64GetGlobal_counter s.queue ht hmean, hb, ?_⟩
    have hentry : ∀ a c : UInt64, MemBlock.mergeEntry t true s.queue.running.length a c = a + c := by
      intro a c
      cases t <;> first | rfl | cases hmean
    rw [hval id t ht, hentry, mergeValues_counter hmean, UInt64.zero_add]
    rfl

theorem Inv.mean_reports (h : Inv types s) {id : Nat} {t : StatType} (ht : types[id]? = some t)
    (hmean : t.isMean = true) (hinit : s.queue.Initialised)
    (hclosed : s.queue.srvStats.closedChilds = 0) (hkids : s.queue.running ≠ [])
    (heven : EvenMeans (s.queue.runningValues id)) : ReportsAgree types s.queue id := by
  obtain ⟨b, hb, hval⟩ := getAllStats_spec h.history (h.ready hinit)
  have hlen : s.queue.running.length ≠ 0 := fun h0 => hkids (length_eq_zero_iff.mp h0)
  refine ⟨_, b, uint64GetGlobal_mean s.queue ht hmean (h.means id t ht hmean) (by omega), hb, ?_⟩
  have hentry : ∀ a c : UInt64, MemBlock.mergeEntry t true s.queue.running.length a c = a := by
    intro a c
    cases t <;> first | rfl | cases hmean
  have hrun := mergeValues_mean hmean [] (s.queue.runningValues id) heven (a := 0) rfl
  rw [hval id t ht, hentry, hclosed, Nat.add_zero, toNat_sum heven.2]
  rw [nil_append, runningValues, length_map] at hrun
  rw [runningValues, ← hrun, UInt64.ofNat_toNat]
  rfl

/-- **Two reports of one value.** In every state of every run the two reports agree on a counter
exactly if the blocks of all running children are initialised. They agree on a mean if also no
child is gone yet, there is a running child, and the running means come out even. -/
theorem reports_agree (types : List StatType) (histos : List HistoSpec) (size : Nat)
    (es : List StatEvent) (id : Nat) (t : StatType) (ht : types[id]? = some t) :
    let q := (Machine.run (step types) (new types histos size) es).queue
    (t.isMean = false → (ReportsAgree types q id ↔ q.Initialised)) ∧
      (t.isMean = true → q.Initialised → q.srvStats.closedChilds = 0 → q.running ≠ [] →
        EvenMeans (q.runningValues id) → ReportsAgree types q id) := by
  have hinv := inv_run types histos size es
  exact ⟨hinv.counter_reports ht, hinv.mean_reports ht⟩

/-- Two children with the means 3 and 4. -/
def twoMeans : List StatEvent :=
  [.start, .register 5, .attach 5, .update 5 0 3, .start, .register 6, .attach 6, .update 6 0 4]

theorem reports_agree_two : ReportsAgree [.int64Mean]
    (Machine.run (step [.int64Mean]) (new [.int64Mean] [] 2) twoMeans).queue 0 :=
  (reports_agree [.int64Mean] [] 2 twoMeans 0 .int64Mean rfl).2 rfl (by decide +kernel)
    (by decide +kernel) (fun h => absurd (congrArg length h) (by decide +kernel))
    (by decide +kernel)

/-- Where the reports differ: without any child the global mean divides by zero. A child that is
gone still counts in the number the global mean divides by. Three running means are rounded twice
in the second report. And the second report ends in an assertion while a child has no block yet. -/
theorem reports_differ : (new [.int64Mean] [] 1).queue.uint64GetGlobal [.int64Mean] 0 = none ∧
    (let q := (Machine.run (step [.int64Mean]) (new [.int64Mean] [] 1)
      [.start, .register 5, .attach 5, .update 5 0 10, .exit 5, .reap 5 false,
        .start, .register 6, .attach 6, .update 6 0 10]).queue;
      q.uint64GetGlobal [.int64Mean] 0 = some 5 ∧
        (q.getAllStats [.int64Mean]).map (·.getCounter 0) = some 10) ∧
    (let q := (Machine.run (step [.int64Mean]) (new [.int64Mean] [] 3)
      [.register 5, .attach 5, .update 5 0 1, .register 6, .attach 6,
        .register 7, .attach 7, .update 7 0 2]).queue;
      q.uint64GetGlobal [.int64Mean] 0 = some 1 ∧
        (q.getAllStats [.int64Mean]).map (·.getCounter 0) = some 0) ∧
    (let q := (Machine.run (step [.int64]) (new [.int64] [] 1) [.start, .register 5]).queue;
      q.uint64GetGlobal [.int64] 0 = some 0 ∧ q.getAllStats [.int64] = none) := by
  decide +kernel

end StatServer

end CIcap
