import CIcap.Arrays.ListRefine

/-! # Runs of list operations

The operations on a list and on a sequence of objects, side by side. `Shows l seq` is all that can
be seen of a list: what the iterations visit, its head and its tail, and that `last` is the last
of the nodes that are reached from `items`. A run of operations shows the sequence it should in
every state exactly if no removal takes out the last object.
-/

namespace CIcap

open Links CList List

variable {α σ : Type}

inductive ListOp (α : Type) where
  | push (x : α) (granted : Bool)
  | pushBack (x : α) (granted : Bool)
  | pop
  | popBack
  | remove (x : α)
  | remove2 (eq : α → Bool)
  | remove3 (eq : α → Bool)

inductive ListOut (α : Type) where
  | item (x : Option α)
  | removed (found : Bool) (stored : Option α)
deriving DecidableEq

def CList.step [DecidableEq α] (o : ListOpts α) (l : CList α) :
    ListOp α → Option (ListOut α × CList α)
  | .push x granted => (push o l x granted).map fun (r, l) => (.item r, l)
  | .pushBack x granted => (pushBack o l x granted).map fun (r, l) => (.item r, l)
  | .pop => (pop o l).map fun (r, l) => (.item r, l)
  | .popBack => (popBack o l).map fun (r, l) => (.item r, l)
  | .remove x => (remove o l x).map fun (r, l) => (.removed r none, l)
  | .remove2 eq => (remove2 o l eq).map fun (r, l) => (.removed r none, l)
  | .remove3 eq => (remove3 o l eq).map fun (r, l) => (.removed r.1 r.2, l)

namespace ListOp

variable [DecidableEq α]

/-- What a removal compares the objects with. -/
def removal (o : ListOpts α) : ListOp α → Option (α → Bool)
  | remove x => some fun item => o.cmp item x
  | remove2 eq => some eq
  | remove3 eq => some eq
  | _ => none

/-- The results an operation may have on a sequence. An insertion fails only without memory. -/
def Result (o : ListOpts α) (seq : List α) : ListOp α → ListOut α → Prop
  | push x granted, out => out = .item (some (o.moved x)) ∨ granted = false ∧ out = .item none
  | pushBack x granted, out => out = .item (some (o.moved x)) ∨ granted = false ∧ out = .item none
  | pop, out => out = .item (seq.head?.map o.moved)
  | popBack, out => out = .item (seq.getLast?.map o.moved)
  | remove x, out => out = .removed (seq.any fun item => o.cmp item x) none
  | remove2 eq, out => out = .removed (seq.any eq) none
  | remove3 eq, out => out = .removed (seq.any eq) ((seq.find? eq).bind (storeRemoved o))

/-- The sequence after an operation with a given result. -/
def effect (o : ListOpts α) (seq : List α) : ListOp α → ListOut α → List α
  | push _ _, .item (some v) => v :: seq
  | pushBack _ _, .item (some v) => seq ++ [v]
  | pop, _ => seq.tail
  | popBack, _ => seq.dropLast
  | remove x, _ => seq.eraseP fun item => o.cmp item x
  | remove2 eq, _ => seq.eraseP eq
  | remove3 eq, _ => seq.eraseP eq
  | _, _ => seq

end ListOp

/-! ## What a list shows -/

/-- The callbacks of an iteration over a sequence, until one of them stops it. -/
def foldUntil (fn : σ → α → σ × Bool) : σ → List α → σ
  | data, [] => data
  | data, x :: xs => if (fn data x).2 then (fn data x).1 else foldUntil fn (fn data x).1 xs

/-- `ci_list_first` and then `n` times `ci_list_next`. -/
def CList.visits (l : CList α) : Nat → Option (List (Option α) × CList α)
  | 0 => do
      let (x, l) ← l.first
      some ([x], l)
  | n + 1 => do
      let (xs, l) ← l.visits n
      let (x, l) ← l.next
      some (xs ++ [x], l)

structure CList.Shows (l : CList α) (seq : List α) : Prop where
  iterate : ∀ (τ : Type) (fn : τ → α → τ × Bool) (data : τ),
    (l.iterate fn data).map Prod.fst = some (foldUntil fn data seq)
  visits : ∀ n, (l.visits n).map Prod.fst = some ((range (n + 1)).map fun i => seq[i]?)
  head : l.head = some seq.head?
  tail : l.tail = some seq.getLast?
  last : ∃ nodes, Seg l.cells l.items nodes none ∧ l.last = (nodes.getLast?).map Prod.fst

section Shows

variable {l : CList α} {nodes ts : List (Nat × α)}

theorem iterateLoop_eq {cells : List (Cell α)} {p : Option Nat} (fn : σ → α → σ × Bool)
    (h : Seg cells p nodes none) (fuel : Nat) (data : σ) (hfuel : nodes.length < fuel) :
    (iterateLoop cells fn fuel p data).map Prod.fst =
      some (foldUntil fn data (nodes.map Prod.snd)) := by
  induction nodes generalizing p fuel data with
  | nil =>
    cases h
    obtain ⟨k, rfl⟩ : ∃ k, fuel = k + 1 := ⟨fuel - 1, by omega⟩
    rfl
  | cons n nodes ih =>
    obtain ⟨rfl, n', hcell, hrest⟩ := h
    rw [length_cons] at hfuel
    obtain ⟨k, rfl⟩ : ∃ k, fuel = k + 1 := ⟨fuel - 1, by omega⟩
    rw [iterateLoop, hcell, map_cons, foldUntil, Option.bind_eq_bind, Option.bind_some]
    dsimp only
    by_cases hstop : (fn data n.2).2 = true
    · rw [if_pos hstop, if_pos hstop]
      rfl
    · rw [if_neg hstop, if_neg hstop]
      exact ih hrest k _ (by omega)

theorem CList.Linked.visits (h : Linked l nodes ts) (n : Nat) :
    l.visits n = some ((range (n + 1)).map fun i => (nodes.map Prod.snd)[i]?,
      { l with cursor := (nodes[n + 1]?).map Prod.fst }) := by
  induction n with
  | zero =>
    cases nodes with
    | nil =>
      have hnone : l.items = none := h.items
      have hcursor : l.cursor = none := by
        rw [Option.eq_none_iff_forall_ne_some]
        intro a ha
        cases h.cursor a ha
      cases l
      cases hnone
      cases hcursor
      rfl
    | cons m nodes =>
      have hcell := h.items.cell_at (i := 0) rfl
      simp only [CList.visits, first, h.items.1, hcell]
      rfl
  | succ n ih =>
    rw [CList.visits, ih, range_succ (n := n + 1)]
    cases hn : nodes[n + 1]? with
    | none =>
      have hend : nodes[n + 1 + 1]? = none := by
        rw [getElem?_eq_none_iff] at hn ⊢
        omega
      simp [CList.next, hn, hend]
    | some m =>
      have hcell := h.items.cell_at hn
      simp [CList.next, hn, hcell]

theorem CList.itemAt_eq (h : Linked l nodes ts) (i : Nat) :
    l.itemAt ((nodes[i]?).map Prod.fst) = some ((nodes[i]?).map Prod.snd) := by
  cases hn : nodes[i]? with
  | none => rfl
  | some n =>
    have hcell := h.items.cell_at hn
    simp [itemAt, hcell]

theorem CList.Rep.shows (h : Rep l nodes ts) : Shows l (nodes.map Prod.snd) where
  iterate := by
    intro τ fn data
    have hloop := iterateLoop_eq fn h.items l.fuel data h.toLinked.length_lt
    unfold CList.iterate
    rw [Option.map_eq_some_iff] at hloop
    obtain ⟨⟨data', cursor⟩, hloop, hdata⟩ := hloop
    rw [hloop, ← hdata]
    rfl
  visits := by
    intro n
    rw [h.toLinked.visits]
    rfl
  head := by
    have hitem := itemAt_eq h.toLinked 0
    rw [← h.items.start, ← head?_eq_getElem?, ← head?_map] at hitem
    exact hitem
  tail := by
    have hitem := itemAt_eq h.toLinked (nodes.length - 1)
    rw [← getLast?_eq_getElem?, ← h.last, ← getLast?_map] at hitem
    exact hitem
  last := ⟨nodes, h.items, h.last⟩

end Shows

/-! ## Removals -/

/-- The object that a removal takes out is the last one. -/
def removesLast (eq : α → Bool) (seq : List α) : Bool := seq.any eq && !seq.dropLast.any eq

section Removal

variable {o : ListOpts α} {l : CList α} {nodes ts : List (Nat × α)}

/-- A removal of the first node that `eq` accepts: what it leaves, and whether `last` is right. -/
def Removed (l' : CList α) (nodes : List (Nat × α)) (eq : α → Bool) : Prop :=
  ∃ nodes' ts', Linked l' nodes' ts' ∧
    nodes'.map Prod.snd = (nodes.map Prod.snd).eraseP eq ∧
    (l'.last = (nodes'.getLast?).map Prod.fst ↔ removesLast eq (nodes.map Prod.snd) = false)

theorem removed_of_split {pre post : List (Nat × α)} {a : Nat} {v : α} {eq : α → Bool}
    {l' : CList α} (h : Rep l (pre ++ (a, v) :: post) ts) (hv : eq v = true)
    (hpre : ∀ m ∈ pre, eq m.2 = false) (hl' : Linked l' (pre ++ post) ((a, o.freed v) :: ts))
    (hlast : l'.last = l.last) : Removed l' (pre ++ (a, v) :: post) eq := by
  have hnone : ∀ x ∈ pre.map Prod.snd, ¬ eq x = true := by
    intro x hx
    obtain ⟨m, hm, rfl⟩ := mem_map.mp hx
    rw [hpre m hm]
    exact Bool.false_ne_true
  refine ⟨pre ++ post, _, hl', ?_, ?_⟩
  · rw [map_append, map_append, eraseP_append_right _ hnone, map_cons, eraseP_cons_of_pos hv]
  · rw [hlast, h.last]
    unfold removesLast
    rcases eq_nil_or_concat post with rfl | ⟨ms, z, rfl⟩
    · -- the last node was taken out, and `last` still leads to it
      have hany : (pre.map Prod.snd).any eq = false := by
        rw [any_eq_false]
        exact hnone
      have hna : a ∉ addrs pre := by
        have hnd := h.toLinked.nodup_nodes
        rw [addrs_append] at hnd
        exact fun hmem => disjoint_of_nodup_append hnd hmem mem_cons_self
      have hne : some a ≠ (pre.getLast?).map Prod.fst := by
        intro heq
        obtain ⟨m, hm, hma⟩ := Option.map_eq_some_iff.mp heq.symm
        exact hna (hma ▸ mem_map_of_mem (mem_of_getLast? hm))
      rw [map_append, map_singleton, dropLast_concat, hany]
      simp [hv, hne]
    · have hall : pre ++ (a, v) :: ms.concat z = pre ++ (a, v) :: ms ++ [z] := by simp
      rw [hall, getLast?_concat, map_append, map_singleton, dropLast_concat]
      simp [hv]

variable (h : Rep l nodes ts) (eq : α → Bool)
include h eq

theorem removal_spec : (search l.cells (fun c => eq c.item) l.fuel none l.items = some none ∧
      (nodes.map Prod.snd).find? eq = none ∧ Removed l nodes eq) ∨
    ∃ prev it c l', search l.cells (fun c => eq c.item) l.fuel none l.items =
        some (some (prev, it, c)) ∧
      unlink o l prev it c = some l' ∧ (nodes.map Prod.snd).find? eq = some c.item ∧
      Removed l' nodes eq := by
  rcases search_remove h.toLinked eq with
    ⟨hnone, hsearch⟩ | ⟨pre, a, v, post, n, rfl, hv, hpre, hcell, hsearch⟩
  · have hall : ∀ x ∈ nodes.map Prod.snd, ¬ eq x = true := by
      intro x hx
      obtain ⟨m, hm, rfl⟩ := mem_map.mp hx
      rw [hnone m hm]
      exact Bool.false_ne_true
    refine .inl ⟨hsearch, find?_eq_none.mpr hall, nodes, ts, h.toLinked, ?_, ?_⟩
    · rw [eraseP_of_forall_not hall]
    · rw [removesLast, any_eq_false.mpr hall]
      exact ⟨fun _ => rfl, fun _ => h.last⟩
  · obtain ⟨l', hunlink, hl', hlast⟩ := unlink_spec (o := o) h.toLinked hcell
    refine .inr ⟨_, a, _, l', hsearch, hunlink, ?_, removed_of_split h hv hpre hl' hlast⟩
    refine find?_eq_some_iff_append.mpr
      ⟨hv, pre.map Prod.snd, post.map Prod.snd, by rw [map_append, map_cons], ?_⟩
    intro x hx
    obtain ⟨m, hm, rfl⟩ := mem_map.mp hx
    rw [hpre m hm]
    rfl

/-- `ci_list_remove2` and `ci_list_remove3` -/
theorem remove_spec : ∃ l', remove2 o l eq = some ((nodes.map Prod.snd).any eq, l') ∧
    remove3 o l eq = some (((nodes.map Prod.snd).any eq,
      ((nodes.map Prod.snd).find? eq).bind (storeRemoved o)), l') ∧ Removed l' nodes eq := by
  unfold remove2 remove3
  rcases removal_spec (o := o) h eq with
    ⟨hsearch, hfind, hrem⟩ | ⟨prev, it, c, l', hsearch, hunlink, hfind, hrem⟩
  · rw [hsearch, ← isSome_find?, hfind]
    exact ⟨l, rfl, rfl, hrem⟩
  · rw [hsearch, ← isSome_find?, hfind]
    simp only [Option.bind_eq_bind, Option.bind_some, hunlink, Option.isSome_some]
    exact ⟨l', rfl, rfl, hrem⟩

end Removal

/-! ## Runs -/

variable [DecidableEq α]

/-- The list and the sequence after an operation. -/
def track (o : ListOpts α) (s : CList α × List α) (op : ListOp α) : CList α × List α :=
  match s.1.step o op with
  | some (out, l') => (l', op.effect o s.2 out)
  | none => s

/-- The operation has the result and the effect it has on the sequence. -/
def Right (o : ListOpts α) (s : CList α × List α) (op : ListOp α) : Prop :=
  ∃ out l', s.1.step o op = some (out, l') ∧ op.Result o s.2 out ∧ Shows l' (op.effect o s.2 out)

/-- The operation does not remove the last object. -/
def KeepsLast (o : ListOpts α) (s : CList α × List α) (op : ListOp α) : Prop :=
  ∀ eq ∈ op.removal o, removesLast eq s.2 = false

section Run

variable {o : ListOpts α} {l : CList α} {nodes ts : List (Nat × α)}

/-- The list represents the sequence. -/
def HoldsSequence (s : CList α × List α) : Prop :=
  ∃ nodes ts, Rep s.1 nodes ts ∧ nodes.map Prod.snd = s.2

/-- **One operation.** Its result is right; the list is linked as it should be, and `last` is
right exactly if the last object was not removed. -/
theorem step_spec (h : Rep l nodes ts) (op : ListOp α) :
    ∃ out l' nodes' ts', l.step o op = some (out, l') ∧ op.Result o (nodes.map Prod.snd) out ∧
      Linked l' nodes' ts' ∧ nodes'.map Prod.snd = op.effect o (nodes.map Prod.snd) out ∧
      (l'.last = (nodes'.getLast?).map Prod.fst ↔ KeepsLast o (l, nodes.map Prod.snd) op) := by
  -- an operation that removes nothing keeps the last object
  have hkeeps : ∀ {l' : CList α} {nodes' ts' : List (Nat × α)} (op : ListOp α),
      op.removal o = none → Rep l' nodes' ts' →
      (l'.last = (nodes'.getLast?).map Prod.fst ↔ KeepsLast o (l, nodes.map Prod.snd) op) := by
    intro l' nodes' ts' op hop hrep
    refine iff_of_true hrep.last ?_
    intro eq heq
    rw [hop] at heq
    cases heq
  have hremoved : ∀ {l' : CList α} {nodes' : List (Nat × α)} {eq : α → Bool} (op : ListOp α),
      op.removal o = some eq →
      (l'.last = (nodes'.getLast?).map Prod.fst ↔ removesLast eq (nodes.map Prod.snd) = false) →
      (l'.last = (nodes'.getLast?).map Prod.fst ↔ KeepsLast o (l, nodes.map Prod.snd) op) := by
    intro l' nodes' eq op hop hiff
    unfold KeepsLast
    rw [hiff, hop]
    simp
  cases op with
  | push x granted =>
    rcases push_spec o x granted h with
      ⟨hg, heq⟩ | ⟨a, ts', l', heq, hrep⟩
    · refine ⟨_, l, nodes, ts, ?_, .inr ⟨hg, rfl⟩, h.toLinked, rfl, hkeeps _ rfl h⟩
      rw [CList.step, heq]
      rfl
    · refine ⟨_, l', _, ts', ?_, .inl rfl, hrep.toLinked, rfl, hkeeps _ rfl hrep⟩
      rw [CList.step, heq]
      rfl
  | pushBack x granted =>
    rcases pushBack_spec o x granted h with
      ⟨hg, heq⟩ | ⟨a, ts', l', heq, hrep⟩
    · refine ⟨_, l, nodes, ts, ?_, .inr ⟨hg, rfl⟩, h.toLinked, rfl, hkeeps _ rfl h⟩
      rw [CList.step, heq]
      rfl
    · refine ⟨_, l', _, ts', ?_, .inl rfl, hrep.toLinked, map_append, hkeeps _ rfl hrep⟩
      rw [CList.step, heq]
      rfl
  | pop =>
    obtain ⟨l', ts', heq, hrep⟩ := pop_spec (o := o) h
    refine ⟨_, l', _, ts', ?_, rfl, hrep.toLinked, map_tail, hkeeps _ rfl hrep⟩
    rw [CList.step, heq, head?_map, Option.map_map]
    rfl
  | popBack =>
    obtain ⟨l', ts', heq, hrep⟩ := popBack_spec (o := o) h
    refine ⟨_, l', _, ts', ?_, rfl, hrep.toLinked, map_dropLast, hkeeps _ rfl hrep⟩
    rw [CList.step, heq, getLast?_map, Option.map_map]
    rfl
  | remove x =>
    obtain ⟨l', heq, -, nodes', ts', hl', heff, hlast⟩ :=
      remove_spec (o := o) h fun item => o.cmp item x
    refine ⟨_, l', nodes', ts', ?_, rfl, hl', heff, hremoved _ rfl hlast⟩
    rw [CList.step, CList.remove, heq]
    rfl
  | remove2 eq =>
    obtain ⟨l', heq, -, nodes', ts', hl', heff, hlast⟩ := remove_spec (o := o) h eq
    refine ⟨_, l', nodes', ts', ?_, rfl, hl', heff, hremoved _ rfl hlast⟩
    rw [CList.step, heq]
    rfl
  | remove3 eq =>
    obtain ⟨l', -, heq, nodes', ts', hl', heff, hlast⟩ := remove_spec (o := o) h eq
    refine ⟨_, l', nodes', ts', ?_, rfl, hl', heff, hremoved _ rfl hlast⟩
    rw [CList.step, heq]
    rfl

/-- The operation is right exactly if it keeps the last object, and then the list represents the
sequence again. -/
theorem right_iff {s : CList α × List α} (h : HoldsSequence s) (op : ListOp α) :
    (Right o s op ↔ KeepsLast o s op) ∧ (KeepsLast o s op → HoldsSequence (track o s op)) := by
  obtain ⟨l, seq⟩ := s
  obtain ⟨nodes, ts, hrep, rfl⟩ := h
  obtain ⟨out, l', nodes', ts', hstep, hres, hl', heff, hlast⟩ := step_spec (o := o) hrep op
  have hrep' : KeepsLast o (l, nodes.map Prod.snd) op → Rep l' nodes' ts' := fun hkeep =>
    ⟨hl', hlast.mpr hkeep⟩
  refine ⟨⟨?_, ?_⟩, ?_⟩
  · rintro ⟨out', l'', hstep', -, hshows⟩
    rw [hstep] at hstep'
    cases hstep'
    obtain ⟨nodes'', hseg, hlast''⟩ := hshows.last
    rw [hl'.items.unique hseg] at hlast
    exact hlast.mp hlast''
  · intro hkeep
    refine ⟨out, l', hstep, hres, ?_⟩
    rw [← heff]
    exact (hrep' hkeep).shows
  · intro hkeep
    refine ⟨nodes', ts', ?_, ?_⟩
    · rw [track, hstep]
      exact hrep' hkeep
    · rw [track, hstep]
      exact heff

end Run

/-- **Lists and sequences.** In a run of operations on a new list every operation has the result
and the effect it has on a sequence, exactly if no operation of it removes the last object of the
list. -/
theorem list_refines_sequence (o : ListOpts α) (ops : List (ListOp α)) :
    Shows (create : CList α) [] ∧
    (Machine.AllSteps (track o) (Right o) (create, []) ops ↔
      Machine.AllSteps (track o) (KeepsLast o) (create, []) ops) := by
  refine ⟨rep_create.shows, ?_⟩
  refine Machine.allSteps_congr (fun s op hs => (right_iff hs op).1) (fun s op hs hright => ?_)
    ⟨[], [], rep_create, rfl⟩ ops
  exact (right_iff hs op).2 ((right_iff hs op).1.mp hright)

def plainList : ListOpts Nat := { objSize := 0, copyFunc := none, freeFunc := none, cmpFunc := none }

/-- After the only object of a list was removed the tail is still that object, and an object that
is put to the end of the list is lost. -/
theorem remove_keeps_tail :
    let ops : List (ListOp Nat) := [.pushBack 1 true, .remove 1, .pushBack 2 true]
    (Machine.run (track plainList) (create, []) (ops.take 2)).1.tail = some (some 1) ∧
    (Machine.run (track plainList) (create, []) ops).1.head = some none ∧
    (Machine.run (track plainList) (create, []) ops).2 = [2] ∧
    ¬ Machine.AllSteps (track plainList) (Right plainList) (create, []) ops := by
  refine ⟨by decide, by decide, by decide, ?_⟩
  rintro ⟨-, ⟨out, l', hstep, -, hshows⟩, -⟩
  have htail := hshows.tail
  cases hstep
  revert htail
  decide

end CIcap
