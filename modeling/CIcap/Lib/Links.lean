import Mathlib.Data.List.Nodup
import Mathlib.Tactic

/-! # Linked cells

A memory of cells, each with an item and the address of the next cell; an address is the position
of the cell in the memory. `Seg cells p nodes q` says that from `p` the cells at the addresses of
`nodes` follow each other, hold the items of `nodes` and lead to `q`; a list is a segment that
leads to `none`. A segment only depends on its own cells (`Seg.frame`), its last cell can be led
elsewhere (`Seg.redirect`), and a loop along a list meets the nodes in their order
(`search_of_split`, `search_of_none`).
-/

namespace Links

open List

variable {α : Type}

structure Cell (α : Type) where
  item : α
  next : Option Nat
deriving DecidableEq, Repr

/-- The cells from `p` are `nodes`, in this order, and the last one leads to `q`. -/
def Seg (cells : List (Cell α)) : Option Nat → List (Nat × α) → Option Nat → Prop
  | p, [], q => p = q
  | p, (a, v) :: nodes, q => p = some a ∧ ∃ n, cells[a]? = some ⟨v, n⟩ ∧ Seg cells n nodes q

def addrs (nodes : List (Nat × α)) : List Nat := nodes.map Prod.fst

@[simp] theorem addrs_nil : addrs ([] : List (Nat × α)) = [] := rfl

@[simp] theorem addrs_cons (n : Nat × α) (nodes : List (Nat × α)) :
    addrs (n :: nodes) = n.1 :: addrs nodes := rfl

@[simp] theorem addrs_append (ns ms : List (Nat × α)) : addrs (ns ++ ms) = addrs ns ++ addrs ms :=
  map_append

@[simp] theorem length_addrs (nodes : List (Nat × α)) : (addrs nodes).length = nodes.length :=
  length_map _

/-! ## Segments -/

section Seg

variable {cells cells' : List (Cell α)} {p q r : Option Nat} {ns ms : List (Nat × α)} {a : Nat}
  {v : α}

theorem seg_append : Seg cells p (ns ++ ms) q ↔ ∃ r, Seg cells p ns r ∧ Seg cells r ms q := by
  induction ns generalizing p with
  | nil => simp [Seg]
  | cons n ns ih =>
    simp only [cons_append, Seg, ih]
    constructor
    · rintro ⟨hp, n, hcell, r, hns, hms⟩
      exact ⟨r, ⟨hp, n, hcell, hns⟩, hms⟩
    · rintro ⟨r, ⟨hp, n, hcell, hns⟩, hms⟩
      exact ⟨hp, n, hcell, r, hns, hms⟩

theorem seg_singleton : Seg cells p [(a, v)] q ↔ p = some a ∧ cells[a]? = some ⟨v, q⟩ := by
  simp [Seg]

theorem Seg.frame (h : Seg cells p ns q) (heq : ∀ a ∈ addrs ns, cells'[a]? = cells[a]?) :
    Seg cells' p ns q := by
  induction ns generalizing p with
  | nil => exact h
  | cons n ns ih =>
    obtain ⟨hp, n', hcell, hrest⟩ := h
    refine ⟨hp, n', ?_, ih hrest (forall_mem_cons.mp heq).2⟩
    rw [heq n.1 mem_cons_self, hcell]

theorem Seg.lt_length (h : Seg cells p ns q) : ∀ a ∈ addrs ns, a < cells.length := by
  induction ns generalizing p with
  | nil => intro a ha; cases ha
  | cons n ns ih =>
    obtain ⟨hp, n', hcell, hrest⟩ := h
    intro a ha
    rcases mem_cons.mp ha with rfl | hmem
    · exact (List.getElem?_eq_some_iff.mp hcell).1
    · exact ih hrest a hmem

theorem Seg.unique (h : Seg cells p ns none) (h' : Seg cells p ms none) : ns = ms := by
  induction ns generalizing p ms with
  | nil =>
    cases ms with
    | nil => rfl
    | cons m ms =>
      obtain ⟨hp, -⟩ := h'
      exact absurd (h.symm.trans hp) (by simp)
  | cons n ns ih =>
    obtain ⟨hp, n', hcell, hrest⟩ := h
    cases ms with
    | nil => exact absurd (h'.symm.trans hp) (by simp)
    | cons m ms =>
      obtain ⟨hp', m', hcell', hrest'⟩ := h'
      have haddr : n.1 = m.1 := Option.some.inj (hp.symm.trans hp')
      rw [haddr, hcell', Option.some.injEq, Cell.mk.injEq] at hcell
      obtain ⟨hval, rfl⟩ := hcell
      rw [ih hrest hrest', Prod.ext haddr hval.symm]

/-- The last cell of a segment can be written anew. -/
theorem Seg.set_last (h : Seg cells p (ns ++ [(a, v)]) q) (hna : a ∉ addrs ns) (w : α) :
    Seg (cells.set a ⟨w, r⟩) p (ns ++ [(a, w)]) r := by
  have hlt : a < cells.length := h.lt_length a (by simp)
  obtain ⟨b, hns, hlast⟩ := seg_append.mp h
  refine seg_append.mpr ⟨b, hns.frame fun c hc => ?_, ?_⟩
  · rw [getElem?_set_ne]
    rintro rfl
    exact hna hc
  · rw [seg_singleton] at hlast ⊢
    exact ⟨hlast.1, getElem?_set_self hlt⟩

/-- The last cell of a segment can be led elsewhere. -/
theorem Seg.redirect (h : Seg cells p (ns ++ [(a, v)]) q) (hna : a ∉ addrs ns) :
    Seg (cells.set a ⟨v, r⟩) p (ns ++ [(a, v)]) r := h.set_last hna v

theorem Seg.set (h : Seg cells p ns q) (hna : a ∉ addrs ns) (c : Cell α) :
    Seg (cells.set a c) p ns q := by
  refine h.frame fun b hb => ?_
  rw [getElem?_set_ne]
  rintro rfl
  exact hna hb

theorem Seg.push (h : Seg cells p ns q) (c : Cell α) : Seg (cells ++ [c]) p ns q :=
  h.frame fun a ha => getElem?_append_left (h.lt_length a ha)

theorem Seg.split (h : Seg cells p (ns ++ (a, v) :: ms) q) :
    ∃ n, cells[a]? = some ⟨v, n⟩ ∧ Seg cells p ns (some a) ∧ Seg cells n ms q := by
  obtain ⟨b, hns, rfl, n, hcell, hms⟩ := seg_append.mp h
  exact ⟨n, hcell, hns, hms⟩

/-- Only the last node of a segment leads out of it. -/
theorem Seg.next_mem {y : Nat} {u : α} (h : Seg cells p (ns ++ [(y, u)]) q) :
    ∀ n ∈ ns, ∀ c, cells[n.1]? = some c → ∃ b ∈ addrs (ns ++ [(y, u)]), c.next = some b := by
  intro n hn c hc
  obtain ⟨pre, post, rfl⟩ := append_of_mem hn
  rw [append_assoc, cons_append] at h
  obtain ⟨next, hcell, -, hrest⟩ := h.split
  rw [hcell, Option.some.injEq] at hc
  rw [← hc]
  -- the next address is that of the first node of the rest
  cases post with
  | nil => exact ⟨y, by simp, hrest.1⟩
  | cons k post => exact ⟨k.1, by simp, hrest.1⟩

theorem Seg.item_eq (h : Seg cells p ns q) :
    ∀ n ∈ ns, ∀ c, cells[n.1]? = some c → c.item = n.2 := by
  intro n hn c hc
  obtain ⟨pre, post, rfl⟩ := append_of_mem hn
  obtain ⟨next, hcell, -⟩ := h.split
  rw [hcell, Option.some.injEq] at hc
  rw [← hc]

theorem Seg.start (h : Seg cells p ns none) : p = (ns[0]?).map Prod.fst := by
  cases ns with
  | nil => exact h
  | cons n ns => exact h.1

/-- The cell of the node at a position leads to the node behind it. -/
theorem Seg.cell_at (h : Seg cells p ns none) {i : Nat} {n : Nat × α} (hn : ns[i]? = some n) :
    cells[n.1]? = some ⟨n.2, (ns[i + 1]?).map Prod.fst⟩ := by
  induction ns generalizing p i with
  | nil => simp at hn
  | cons m ns ih =>
    obtain ⟨-, n', hcell, hrest⟩ := h
    cases i with
    | zero =>
      rw [getElem?_cons_zero, Option.some.injEq] at hn
      rw [← hn, hcell, hrest.start]
      rfl
    | succ i => exact ih hrest hn

/-- Cells of which each leads to the one behind it in the memory. -/
theorem seg_row {n : Nat} (h : ∀ i < n, cells[i]? = some ⟨v, if i + 1 < n then some (i + 1) else none⟩)
    {k m : Nat} (hn : k + m = n) :
    Seg cells (if k < n then some k else none) ((range' k m).map fun i => (i, v)) none := by
  induction m generalizing k with
  | zero => exact if_neg (by omega)
  | succ m ih =>
    rw [if_pos (by omega)]
    exact ⟨rfl, _, h k (by omega), ih (by omega)⟩

/-- Nodes at different addresses are not more than there are cells. -/
theorem Seg.length_le (h : Seg cells p ns q) (hnd : (addrs ns).Nodup) :
    ns.length ≤ cells.length := by
  have hsub : addrs ns ⊆ range cells.length := fun a ha =>
    mem_range.mpr (h.lt_length a ha)
  have hle := (List.Nodup.subperm hnd hsub).length_le
  rwa [length_addrs, length_range] at hle

end Seg

/-! ## Loops -/

/-- A loop along the cells from `p`: the first one that `stop` accepts, with the address before
it. `none` stands for a pointer to no cell and for a loop that does not end. -/
def search (cells : List (Cell α)) (stop : Cell α → Bool) :
    Nat → Option Nat → Option Nat → Option (Option (Option Nat × Nat × Cell α))
  | 0, _, _ => none
  | _ + 1, _, none => some none
  | fuel + 1, prev, some a => do
      let c ← cells[a]?
      if stop c then some (some (prev, a, c)) else search cells stop fuel (some a) c.next

section Search

variable {cells : List (Cell α)} {stop : Cell α → Bool} {p prev q : Option Nat}
  {ns ms : List (Nat × α)} {fuel : Nat}

theorem search_skip (h : Seg cells p ns q)
    (hstop : ∀ n ∈ ns, ∀ c, cells[n.1]? = some c → stop c = false) :
    search cells stop (fuel + ns.length) prev p =
      search cells stop fuel (((ns.getLast?).map Prod.fst).or prev) q := by
  induction ns generalizing p prev with
  | nil =>
    cases h
    rfl
  | cons n ns ih =>
    obtain ⟨rfl, n', hcell, hrest⟩ := h
    have hgo : stop ⟨n.2, n'⟩ = false := hstop n mem_cons_self _ hcell
    rw [length_cons, ← Nat.add_assoc, search, hcell, Option.bind_eq_bind, Option.bind_some,
      if_neg (by rw [hgo]; exact Bool.false_ne_true),
      ih hrest (forall_mem_cons.mp hstop).2]
    cases hns : ns.getLast? with
    | none =>
      rw [getLast?_eq_none_iff.mp hns]
      rfl
    | some m => rw [getLast?_cons, hns]; rfl

/-- The loop stops at the first node that is accepted. -/
theorem search_of_split {a : Nat} {v : α} {c : Cell α}
    (h : Seg cells p (ns ++ (a, v) :: ms) q) (hcell : cells[a]? = some c) (haccept : stop c = true)
    (hstop : ∀ n ∈ ns, ∀ c, cells[n.1]? = some c → stop c = false) (hfuel : ns.length < fuel) :
    search cells stop fuel prev p = some (some (((ns.getLast?).map Prod.fst).or prev, a, c)) := by
  obtain ⟨n, -, hns, -⟩ := h.split
  obtain ⟨k, rfl⟩ : ∃ k, fuel = k + 1 + ns.length := ⟨fuel - 1 - ns.length, by omega⟩
  rw [search_skip hns hstop, search, hcell, Option.bind_eq_bind, Option.bind_some, if_pos haccept]

/-- The loop reaches the end of a list of which no node is accepted. -/
theorem search_of_none (h : Seg cells p ns none)
    (hstop : ∀ n ∈ ns, ∀ c, cells[n.1]? = some c → stop c = false) (hfuel : ns.length < fuel) :
    search cells stop fuel prev p = some none := by
  obtain ⟨k, rfl⟩ : ∃ k, fuel = k + 1 + ns.length := ⟨fuel - 1 - ns.length, by omega⟩
  rw [search_skip h hstop, search]

end Search

end Links
