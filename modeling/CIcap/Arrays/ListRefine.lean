import CIcap.Arrays.List

/-! # Lists refine sequences

`Linked l nodes ts` says which nodes are linked from `items` and which from `trash`, and that
no node is linked twice; `Rep` adds that `last` is the last of the first. Every operation keeps
`Linked`. All of them keep `Rep` but the removals, which leave `last` where it was: it is the last
node no more exactly when that is the node that was removed.
-/

namespace CIcap

open Links List

variable {α σ : Type}

namespace CList

/-- The nodes of the list and those of its trash. -/
structure Linked (l : CList α) (nodes ts : List (Nat × α)) : Prop where
  items : Seg l.cells l.items nodes none
  trash : Seg l.cells l.trash ts none
  nodup : (addrs (nodes ++ ts)).Nodup
  cursor : ∀ a, l.cursor = some a → a ∈ addrs nodes

/-- The nodes of a list whose `last` is the last of them. -/
structure Rep (l : CList α) (nodes ts : List (Nat × α)) : Prop extends Linked l nodes ts where
  last : l.last = (nodes.getLast?).map Prod.fst

theorem rep_create : Rep (create : CList α) [] [] where
  items := rfl
  trash := rfl
  nodup := nodup_nil
  cursor := nofun
  last := rfl

section Spec

variable {o : ListOpts α} {l : CList α} {nodes ts : List (Nat × α)} {x v : α} {granted : Bool}
  {it : Nat}

section

variable (h : Linked l nodes ts)
include h

theorem Linked.nodup_nodes : (addrs nodes).Nodup := by
  have hnd := h.nodup
  rw [addrs_append] at hnd
  exact hnd.of_append_left

theorem Linked.length_lt : nodes.length < l.fuel :=
  Nat.lt_succ_of_le (h.items.length_le h.nodup_nodes)

/-- A node that is linked nowhere goes to the trash. -/
theorem Linked.recycle (hlt : it < l.cells.length)
    (hfree : it ∉ addrs (nodes ++ ts)) (v : α) : Linked (l.recycle it v) nodes ((it, v) :: ts) := by
  rw [addrs_append, mem_append, not_or] at hfree
  exact
    { items := h.items.set hfree.1 _
      trash := ⟨rfl, l.trash, getElem?_set_self hlt, h.trash.set hfree.2 _⟩
      nodup := by
        have hnd := h.nodup
        rw [addrs_append] at hnd ⊢
        rw [addrs_cons, nodup_middle, nodup_cons]
        exact ⟨by rw [mem_append, not_or]; exact hfree, hnd⟩
      cursor := h.cursor }

end

/-- A new node is linked nowhere and holds the object. -/
theorem listAllocItem_spec (o : ListOpts α) (x : α) (granted : Bool) (h : Linked l nodes ts) :
    (granted = false ∧ listAllocItem o l x granted = some (none, l)) ∨
    ∃ a ts' l', listAllocItem o l x granted = some (some a, l') ∧ Linked l' nodes ts' ∧
      a ∉ addrs (nodes ++ ts') ∧ l'.cells[a]? = some ⟨o.moved x, none⟩ ∧ l'.items = l.items ∧
      l'.last = l.last := by
  unfold listAllocItem
  cases ts with
  | nil =>
    have htrash : l.trash = none := h.trash
    rw [htrash]
    cases granted with
    | false => exact .inl ⟨rfl, rfl⟩
    | true =>
      -- the new cell has the first address behind the memory
      refine .inr ⟨l.cells.length, [], _, rfl, ?_, ?_, ?_, rfl, rfl⟩
      · exact ⟨h.items.push _, rfl, h.nodup, h.cursor⟩
      · rw [append_nil]
        intro hmem
        exact Nat.lt_irrefl _ (h.items.lt_length _ hmem)
      · exact getElem?_concat_length
  | cons t ts =>
    obtain ⟨htrash, n, hcell, hts⟩ := h.trash
    have hlt : t.1 < l.cells.length := h.trash.lt_length _ mem_cons_self
    have hnd := h.nodup
    rw [addrs_append, addrs_cons, nodup_middle, nodup_cons, ← addrs_append] at hnd
    have hfree := hnd.1
    rw [addrs_append, mem_append, not_or] at hfree
    rw [htrash]
    dsimp only
    rw [hcell]
    exact .inr ⟨t.1, ts, _, rfl, ⟨h.items.set hfree.1 _, hts.set hfree.2 _, hnd.2, h.cursor⟩,
      hnd.1, getElem?_set_self hlt, rfl, rfl⟩

theorem push_spec (o : ListOpts α) (x : α) (granted : Bool) (h : Rep l nodes ts) :
    (granted = false ∧ push o l x granted = some (none, l)) ∨
    ∃ a ts' l', push o l x granted = some (some (o.moved x), l') ∧
      Rep l' ((a, o.moved x) :: nodes) ts' := by
  unfold push
  rcases listAllocItem_spec o x granted h.toLinked with
    ⟨hg, halloc⟩ | ⟨a, ts', l', halloc, hl, hfree, hcell, hitems, hlast⟩
  · rw [halloc]
    exact .inl ⟨hg, rfl⟩
  right
  have hlt : a < l'.cells.length := (List.getElem?_eq_some_iff.mp hcell).1
  have hnd : (addrs ((a, o.moved x) :: nodes ++ ts')).Nodup := List.nodup_cons.mpr ⟨hfree, hl.nodup⟩
  rw [addrs_append, mem_append, not_or] at hfree
  rw [halloc]
  cases nodes with
  | nil =>
    have hnone : l'.items = none := hl.items
    simp only [Option.bind_eq_bind, Option.bind_some, hnone, hcell]
    exact ⟨a, ts', _, rfl, ⟨⟨rfl, none, hcell, rfl⟩, hl.trash, hnd, fun b hb =>
      mem_cons_of_mem _ (hl.cursor b hb)⟩, rfl⟩
  | cons n nodes =>
    obtain ⟨hsome, -⟩ := id hl.items
    simp only [Option.bind_eq_bind, Option.bind_some, hsome, setNext, hcell, Option.map_some,
      getElem?_set_self hlt]
    refine ⟨a, ts', _, rfl, ⟨⟨rfl, some n.1, getElem?_set_self hlt, ?_⟩,
      hl.trash.set hfree.2 _, hnd, fun b hb => mem_cons_of_mem _ (hl.cursor b hb)⟩, ?_⟩
    · rw [← hsome]
      exact hl.items.set hfree.1 _
    · rw [hlast, h.last, getLast?_cons_cons]

theorem pushBack_spec (o : ListOpts α) (x : α) (granted : Bool) (h : Rep l nodes ts) :
    (granted = false ∧ pushBack o l x granted = some (none, l)) ∨
    ∃ a ts' l', pushBack o l x granted = some (some (o.moved x), l') ∧
      Rep l' (nodes ++ [(a, o.moved x)]) ts' := by
  unfold pushBack
  rcases listAllocItem_spec o x granted h.toLinked with
    ⟨hg, halloc⟩ | ⟨a, ts', l', halloc, hl, hfree, hcell, hitems, hlast⟩
  · rw [halloc]
    exact .inl ⟨hg, rfl⟩
  right
  have hnd : (addrs (nodes ++ [(a, o.moved x)] ++ ts')).Nodup := by
    have hcons : (a :: addrs (nodes ++ ts')).Nodup := nodup_cons.mpr ⟨hfree, hl.nodup⟩
    rw [append_assoc, addrs_append, singleton_append, addrs_cons, nodup_middle]
    rwa [addrs_append, ← cons_append] at hcons
  have hcursor : ∀ b, l'.cursor = some b → b ∈ addrs (nodes ++ [(a, o.moved x)]) := by
    intro b hb
    rw [addrs_append]
    exact mem_append_left _ (hl.cursor b hb)
  rw [addrs_append, mem_append, not_or] at hfree
  rw [halloc]
  rcases eq_nil_or_concat nodes with rfl | ⟨ns, ⟨z, w⟩, rfl⟩
  · have hnone : l'.last = none := hlast.trans h.last
    simp only [Option.bind_eq_bind, Option.bind_some, hnone, hcell]
    exact ⟨a, ts', _, rfl, ⟨⟨rfl, none, hcell, rfl⟩, hl.trash, hnd, hcursor⟩, rfl⟩
  have hz : l'.last = some z := by
    rw [hlast, h.last, concat_eq_append, getLast?_concat]
    rfl
  simp only [concat_eq_append] at *
  have hzn : z ∉ addrs ns := by
    have hns := hl.nodup_nodes
    rw [addrs_append] at hns
    exact fun hmem => disjoint_of_nodup_append hns hmem mem_cons_self
  have hza : a ≠ z := by
    rintro rfl
    exact hfree.1 (by simp)
  have hzt : z ∉ addrs ts' := by
    have hall := hl.nodup
    rw [addrs_append] at hall
    exact fun hmem => disjoint_of_nodup_append hall (by simp) hmem
  obtain ⟨n, hzcell, -, -⟩ := hl.items.split
  have hacell : (l'.cells.set z ⟨w, some a⟩)[a]? = some ⟨o.moved x, none⟩ := by
    rw [getElem?_set_ne hza.symm, hcell]
  simp only [Option.bind_eq_bind, Option.bind_some, hz, setNext, hzcell, Option.map_some, hacell]
  refine ⟨a, ts', _, rfl, ⟨seg_append.mpr ⟨some a, hl.items.redirect hzn, rfl, none, hacell, rfl⟩,
    hl.trash.set hzt _, hnd, hcursor⟩, ?_⟩
  rw [getLast?_concat]
  rfl

/-- An insertion that fails had no node of the trash to use again. -/
theorem trash_of_pushBack {l' : CList α} (h : pushBack o l x granted = some (none, l')) :
    l.trash = none := by
  cases htrash : l.trash with
  | none => rfl
  | some a =>
    unfold pushBack listAllocItem at h
    simp only [htrash, Option.bind_eq_bind, Option.bind_eq_some_iff] at h
    obtain ⟨⟨p, l₁⟩, ⟨c, -, halloc⟩, h⟩ := h
    cases halloc
    cases hlast : l.last with
    | none | some z => simp [hlast, Option.bind_eq_some_iff] at h

theorem pop_spec (h : Rep l nodes ts) :
    ∃ l' ts', pop o l = some ((nodes.head?).map fun n => o.moved n.2, l') ∧ Rep l' nodes.tail ts' := by
  unfold pop
  cases nodes with
  | nil =>
    have hnone : l.items = none := h.items
    rw [hnone]
    exact ⟨l, ts, rfl, h⟩
  | cons n nodes =>
    obtain ⟨hsome, n', hcell, hrest⟩ := id h.items
    have hlt : n.1 < l.cells.length := (List.getElem?_eq_some_iff.mp hcell).1
    have hnd := h.nodup
    rw [cons_append, addrs_cons, nodup_cons] at hnd
    simp only [hsome, Option.bind_eq_bind, hcell, Option.bind_some]
    -- the list without the node, before it is recycled
    cases nodes with
    | nil =>
      have hlast : l.last = some n.1 := h.last
      have hempty : Rep { l with last := none, items := none, cursor := none } [] ts :=
        ⟨⟨rfl, h.trash, hnd.2, nofun⟩, rfl⟩
      rw [if_pos hlast]
      exact ⟨_, _, rfl, hempty.toLinked.recycle hlt hnd.1 _, rfl⟩
    | cons m nodes =>
      have hlast : l.last = ((m :: nodes).getLast?).map Prod.fst := by
        rw [h.last, getLast?_cons_cons]
      have hne : l.last ≠ some n.1 := by
        intro heq
        obtain ⟨z, hz, hzn⟩ := Option.map_eq_some_iff.mp (hlast.symm.trans heq)
        have hmem : n.1 ∈ addrs (m :: nodes) := by
          rw [← hzn]
          exact mem_map_of_mem (mem_of_getLast? hz)
        exact hnd.1 (by rw [addrs_append]; exact mem_append_left _ hmem)
      have hcursor : ∀ a, (if l.cursor = some n.1 then n' else l.cursor) = some a →
          a ∈ addrs (m :: nodes) := by
        intro a ha
        by_cases hc : l.cursor = some n.1
        · rw [if_pos hc, hrest.1] at ha
          cases ha
          exact mem_cons_self
        · rw [if_neg hc] at ha
          rcases mem_cons.mp (h.cursor a ha) with rfl | hmem
          · exact absurd ha hc
          · exact hmem
      have hmid : Linked { l with
          cursor := if l.cursor = some n.1 then n' else l.cursor, items := n' } (m :: nodes) ts :=
        ⟨hrest, h.trash, hnd.2, hcursor⟩
      rw [if_neg hne]
      exact ⟨_, _, rfl, hmid.recycle hlt hnd.1 _, hlast⟩

theorem popBack_spec (h : Rep l nodes ts) :
    ∃ l' ts', popBack o l = some ((nodes.getLast?).map fun n => o.moved n.2, l') ∧
      Rep l' nodes.dropLast ts' := by
  unfold popBack
  rcases eq_nil_or_concat nodes with rfl | ⟨ns, ⟨z, w⟩, rfl⟩
  · have hnone : l.items = none := h.items
    rw [hnone]
    exact ⟨l, ts, rfl, h⟩
  rw [concat_eq_append] at h ⊢
  have hz : l.last = some z := by
    rw [h.last, getLast?_concat]
    rfl
  have hlt : z < l.cells.length := h.items.lt_length z (by simp)
  have hnd : z ∉ addrs (ns ++ ts) ∧ (addrs (ns ++ ts)).Nodup := by
    have hall := h.nodup
    rw [append_assoc, addrs_append, singleton_append, addrs_cons, nodup_middle,
      nodup_cons, ← addrs_append] at hall
    exact hall
  obtain ⟨n, hzcell, hns, hn⟩ := h.items.split
  rw [getLast?_concat, dropLast_concat]
  rcases eq_nil_or_concat ns with rfl | ⟨ms, ⟨y, u⟩, rfl⟩
  · -- the only node
    have hitems : l.items = some z := hns
    have hempty : Linked { l with last := none, items := none, cursor := none } [] ts :=
      ⟨rfl, h.trash, hnd.2, nofun⟩
    simp only [hitems, hz, Option.bind_eq_bind, Option.bind_some, hzcell]
    exact ⟨_, _, rfl, hempty.recycle hlt hnd.1 _, rfl⟩
  rw [concat_eq_append] at *
  have hzn : z ∉ addrs (ms ++ [(y, u)]) := by
    intro hmem
    exact hnd.1 (by rw [addrs_append]; exact mem_append_left _ hmem)
  have hyn : y ∉ addrs ms ∧ y ∉ addrs ts := by
    have hall := hnd.2
    rw [append_assoc, addrs_append, singleton_append, addrs_cons, nodup_middle,
      nodup_cons, mem_append, not_or] at hall
    exact hall.1
  have hyz : y ≠ z := by
    rintro rfl
    exact hzn (by simp)
  obtain ⟨y', hycell, hms, hy'⟩ := hns.split
  have hfound : search l.cells (fun c => decide (c.next = some z)) l.fuel none l.items =
      some (some (((ms.getLast?).map Prod.fst).or none, y, ⟨u, y'⟩)) := by
    refine search_of_split hns hycell (by rw [hy']; simp) ?_ ?_
    · intro m hm c hc
      refine decide_eq_false fun hnext => hzn ?_
      obtain ⟨b, hb, hnext'⟩ := hns.next_mem m hm c hc
      rw [hnext', Option.some.injEq] at hnext
      exact hnext ▸ hb
    · have hlen := h.toLinked.length_lt
      simp only [length_append] at hlen
      omega
  have hitems : ∃ b, l.items = some b ∧ b ≠ z := by
    cases ms with
    | nil => exact ⟨y, hms, hyz⟩
    | cons m ms =>
      refine ⟨m.1, hms.1, ?_⟩
      rintro rfl
      exact hzn (by simp)
  obtain ⟨b, hb, hbz⟩ := hitems
  have hcursor : ∀ a, (if l.cursor = some z then none else l.cursor) = some a →
      a ∈ addrs (ms ++ [(y, u)]) := by
    intro a ha
    by_cases hc : l.cursor = some z
    · rw [if_pos hc] at ha
      cases ha
    · rw [if_neg hc] at ha
      have hmem := h.cursor a ha
      rw [addrs_append, mem_append] at hmem
      rcases hmem with hmem | hmem
      · exact hmem
      · rw [mem_singleton.mp hmem] at ha
        exact absurd ha hc
  have hmid : Linked { l with
      cells := l.cells.set y ⟨u, none⟩
      cursor := if l.cursor = some z then none else l.cursor
      last := some y } (ms ++ [(y, u)]) ts :=
    ⟨hns.redirect hyn.1, h.trash.set hyn.2 _, hnd.2, hcursor⟩
  have hzcell' : (l.cells.set y ⟨u, none⟩)[z]? = some ⟨w, n⟩ := by
    rw [getElem?_set_ne hyz, hzcell]
  have hne : ¬ some z = some b := fun heq => hbz (Option.some.inj heq).symm
  have hlt' : z < (l.cells.set y ⟨u, none⟩).length := by rwa [length_set]
  rw [hb] at hfound hmid
  simp only [hb, hz, Option.bind_eq_bind, Option.bind_some, if_neg hne, hfound, setNext, hycell,
    hzcell']
  refine ⟨_, _, rfl, hmid.recycle hlt' hnd.1 _, ?_⟩
  rw [getLast?_concat]
  rfl

/-- The loop of the removals, where an object is found and where none is. -/
theorem search_remove (h : Linked l nodes ts) (eq : α → Bool) : ((∀ n ∈ nodes, eq n.2 = false) ∧
      search l.cells (fun c => eq c.item) l.fuel none l.items = some none) ∨
    ∃ pre a v post n, nodes = pre ++ (a, v) :: post ∧ eq v = true ∧ (∀ m ∈ pre, eq m.2 = false) ∧
      l.cells[a]? = some ⟨v, n⟩ ∧
      search l.cells (fun c => eq c.item) l.fuel none l.items =
        some (some ((pre.getLast?).map Prod.fst, a, ⟨v, n⟩)) := by
  cases hfind : nodes.find? fun n => eq n.2 with
  | none =>
    have hall : ∀ n ∈ nodes, eq n.2 = false := fun n hn =>
      Bool.eq_false_iff.mpr (find?_eq_none.mp hfind n hn)
    refine .inl ⟨hall, search_of_none h.items (fun n hn c hc => ?_) h.length_lt⟩
    rw [h.items.item_eq n hn c hc]
    exact hall n hn
  | some av =>
    obtain ⟨hv, pre, post, rfl, hpre⟩ := find?_eq_some_iff_append.mp hfind
    obtain ⟨n, hcell, hseg, -⟩ := h.items.split
    have hpre' : ∀ m ∈ pre, eq m.2 = false := fun m hm => by simpa using hpre m hm
    have hlen := h.length_lt
    rw [length_append] at hlen
    refine .inr ⟨pre, av.1, av.2, post, n, rfl, hv, hpre', hcell, ?_⟩
    rw [search_of_split h.items hcell hv
      (fun m hm c hc => by rw [hseg.item_eq m hm c hc]; exact hpre' m hm) (by omega),
      Option.or_none]

/-- Taking out a node leaves `last` alone. -/
theorem unlink_spec {pre post : List (Nat × α)} {a : Nat} {n : Option Nat}
    (h : Linked l (pre ++ (a, v) :: post) ts) (hcell : l.cells[a]? = some ⟨v, n⟩) :
    ∃ l', unlink o l ((pre.getLast?).map Prod.fst) a ⟨v, n⟩ = some l' ∧
      Linked l' (pre ++ post) ((a, o.freed v) :: ts) ∧ l'.last = l.last := by
  have hnd : a ∉ addrs (pre ++ post ++ ts) ∧ (addrs (pre ++ post ++ ts)).Nodup := by
    have hall := h.nodup
    rw [append_assoc, addrs_append, cons_append, addrs_cons, nodup_middle,
      nodup_cons, ← addrs_append, ← append_assoc] at hall
    exact hall
  have hlt : a < l.cells.length := (List.getElem?_eq_some_iff.mp hcell).1
  obtain ⟨n', hcell', hpre, hpost⟩ := h.items.split
  obtain rfl : n' = n := by
    rw [hcell, Option.some.injEq, Cell.mk.injEq] at hcell'
    exact hcell'.2.symm
  have hcursor : ∀ b, (if l.cursor = some a then n' else l.cursor) = some b →
      b ∈ addrs (pre ++ post) := by
    intro b hb
    rw [addrs_append, mem_append]
    by_cases hc : l.cursor = some a
    · rw [if_pos hc] at hb
      cases post with
      | nil => exact absurd (hpost.symm.trans hb) (by simp)
      | cons m post =>
        rw [hpost.1] at hb
        cases hb
        exact .inr mem_cons_self
    · rw [if_neg hc] at hb
      have hmem := h.cursor b hb
      rw [addrs_append, mem_append, addrs_cons, mem_cons] at hmem
      rcases hmem with hmem | rfl | hmem
      · exact .inl hmem
      · exact absurd hb hc
      · exact .inr hmem
  unfold unlink
  rcases eq_nil_or_concat pre with rfl | ⟨ms, ⟨y, u⟩, rfl⟩
  · have hmid : Linked { l with
        items := n', cursor := if l.cursor = some a then n' else l.cursor } post ts :=
      ⟨hpost, h.trash, hnd.2, hcursor⟩
    exact ⟨_, rfl, hmid.recycle hlt hnd.1 _, rfl⟩
  rw [concat_eq_append] at *
  have hy : y ∉ addrs ms ∧ y ∉ addrs post ∧ y ∉ addrs ts := by
    have hall := hnd.2
    rw [append_assoc, append_assoc, addrs_append, singleton_append, addrs_cons,
      nodup_middle, nodup_cons, addrs_append, mem_append, mem_append, not_or,
      not_or] at hall
    exact hall.1
  obtain ⟨y', hycell, -, -⟩ := hpre.split
  have hmid : Linked { l with
      cells := l.cells.set y ⟨u, n'⟩
      cursor := if l.cursor = some a then n' else l.cursor } (ms ++ [(y, u)] ++ post) ts :=
    ⟨seg_append.mpr ⟨n', hpre.redirect hy.1, hpost.set hy.2.1 _⟩, h.trash.set hy.2.2 _, hnd.2,
      hcursor⟩
  have hlt' : a < (l.cells.set y ⟨u, n'⟩).length := by rwa [length_set]
  rw [getLast?_concat]
  simp only [Option.map_some, setNext, hycell]
  exact ⟨_, rfl, hmid.recycle hlt' hnd.1 _, rfl⟩

end Spec

end CList

end CIcap
