import CIcap.Arrays.Vector

/-! # The pack allocator

Allocations from both ends of one block, and the moves of its two positions that the pops of
`array.c` make. Behind every run on a block of less than 2^31 bytes the allocations that no move has
released lie in the block and apart from each other.
-/

namespace CIcap

open List Packer

/-- `pack_allocator_t` -/
structure PackAllocator extends Packer where
  memchunk : Nat
  fin : Nat

/-- `init_pack_allocator` -/
def initPackAllocator (memblock size : Nat) : PackAllocator where
  memchunk := memblock
  curpos := memblock
  fin := memblock + alignedOffset size
  endpos := memblock + alignedOffset size

/-- `ci_pack_allocator_set_start_pos`; `none` is a failed assertion. -/
def PackAllocator.setStartPos (a : PackAllocator) (p : Nat) : Option PackAllocator :=
  if a.memchunk ≤ p then some { a with curpos := p } else none

/-- `ci_pack_allocator_set_end_pos`, with a pointer or `NULL`. -/
def PackAllocator.setEndPos (a : PackAllocator) : Option Nat → Option PackAllocator
  | none => some { a with endpos := a.fin }
  | some p => if p ≤ a.fin then some { a with endpos := p } else none

/-- An allocation from one of the ends, a move of one of the positions to the `k`-th allocation on
its side, or a reset of the rear. -/
inductive PackOp where
  | front (size : Nat) (align : Bool)
  | rear (size : Nat) (align : Bool)
  | startTo (k : Nat)
  | endTo (k : Nat)
  | resetEnd

def PackOp.Sized : PackOp → Prop
  | .front size _ | .rear size _ => size ≤ 2 ^ 31 - 8
  | _ => True

/-- The allocator, and the positions and sizes of the allocations that are in use. -/
structure Packed extends PackAllocator where
  front : List (Nat × Nat) := []
  rear : List (Nat × Nat) := []

namespace Packed

def step (s : Packed) : PackOp → Option Packed
  | .front size align =>
    match if align then s.alloc size else s.allocUnaligned size with
    | none => some s
    | some (pos, p) => some { s with toPacker := p, front := (pos, size) :: s.front }
  | .rear size align =>
    match s.allocFromRear2 size align with
    | none => some s
    | some (pos, p) => some { s with toPacker := p, rear := (pos, size) :: s.rear }
  | .startTo k =>
    match s.front[k]? with
    | none => some s
    | some (pos, _) => (s.setStartPos pos).map fun a =>
        { s with toPackAllocator := a, front := s.front.filter fun x => x.1 + x.2 ≤ pos }
  | .endTo k =>
    match s.rear[k]? with
    | none => some s
    | some (pos, _) => (s.setEndPos pos).map fun a =>
        { s with toPackAllocator := a, rear := s.rear.filter fun x => pos ≤ x.1 }
  | .resetEnd => (s.setEndPos none).map fun a => { s with toPackAllocator := a, rear := [] }

/-- Two allocations share no byte. -/
def Apart (x y : Nat × Nat) : Prop := x.1 + x.2 ≤ y.1 ∨ y.1 + y.2 ≤ x.1

/-- The positions are in order. What is in use lies at the ends of the block, on the two sides of
what is left, and apart from each other. -/
structure Good (s : Packed) (memblock size : Nat) : Prop where
  memchunk : s.memchunk = memblock
  start : memblock ≤ s.curpos
  order : s.curpos ≤ s.endpos
  fin : s.endpos ≤ s.fin
  block : s.fin ≤ memblock + size
  front : ∀ x ∈ s.front, memblock ≤ x.1 ∧ x.1 + x.2 ≤ s.curpos
  rear : ∀ x ∈ s.rear, s.endpos ≤ x.1 ∧ x.1 + x.2 ≤ s.fin
  apart : (s.front ++ s.rear).Pairwise Apart

variable {s : Packed} {memblock size : Nat} {op : PackOp} (h : s.Good memblock size)
include h

/-- What is left is apart from all that is in use. -/
theorem Good.cons {x : Nat × Nat} (hlow : s.curpos ≤ x.1) (hhigh : x.1 + x.2 ≤ s.endpos) :
    (x :: (s.front ++ s.rear)).Pairwise Apart := by
  refine pairwise_cons.mpr ⟨fun y hy => ?_, h.apart⟩
  rcases mem_append.mp hy with hy | hy
  · exact .inr ((h.front y hy).2.trans hlow)
  · exact .inl (hhigh.trans (h.rear y hy).1)

theorem Good.step (hsize : size < 2 ^ 31) (hop : op.Sized) :
    ∃ s', s.step op = some s' ∧ s'.Good memblock size := by
  have hstart := h.start
  have horder := h.order
  have hfin := h.fin
  have hblock := h.block
  cases op with
  | front n align =>
    obtain ⟨m, hnm, hm, halloc⟩ : ∃ m, n ≤ m ∧ m ≤ 2 ^ 31 ∧
        (if align then s.alloc n else s.allocUnaligned n) = s.allocUnaligned m := by
      have hn : n ≤ 2 ^ 31 - 8 := hop
      cases align with
      | true => exact ⟨ciAlign n, le_ciAlign n, by unfold ciAlign; omega, rfl⟩
      | false => exact ⟨n, le_rfl, by omega, rfl⟩
    simp only [Packed.step, halloc, allocUnaligned_eq horder hm]
    split_ifs with hroom
    · exact ⟨s, rfl, h⟩
    · exact ⟨_, rfl, { h with
        start := by dsimp only; omega
        order := by dsimp only; omega
        front := forall_mem_cons.mpr ⟨⟨hstart, by dsimp only; omega⟩, fun x hx =>
          ⟨(h.front x hx).1, (h.front x hx).2.trans (Nat.le_add_right _ _)⟩⟩
        apart := h.cons le_rfl (by dsimp only; omega) }⟩
  | rear n align =>
    rw [Packed.step]
    cases hres : s.allocFromRear2 n align with
    | none => exact ⟨s, rfl, h⟩
    | some res =>
      obtain ⟨pos, p⟩ := res
      obtain ⟨hcur, hpos, hhigh, hlow⟩ := allocFromRear2_eq_some horder hres
      refine ⟨_, rfl, { h with
        start := by dsimp only; omega
        order := by dsimp only; omega
        fin := by dsimp only; omega
        front := fun x hx => by dsimp only; rw [hcur]; exact h.front x hx
        rear := forall_mem_cons.mpr ⟨⟨hpos.le, by dsimp only; omega⟩, fun x hx => ?_⟩
        apart := (pairwise_middle Or.symm).mpr (h.cons hlow hhigh) }⟩
      have := h.rear x hx
      dsimp only
      omega
  | startTo k =>
    rw [Packed.step]
    cases hk : s.front[k]? with
    | none => exact ⟨s, rfl, h⟩
    | some x =>
      obtain ⟨hlow, hhigh⟩ := h.front x (mem_of_getElem? hk)
      dsimp only
      rw [PackAllocator.setStartPos, if_pos (h.memchunk ▸ hlow)]
      exact ⟨_, rfl, { h with
        start := hlow
        order := by dsimp only; omega
        front := fun y hy => ⟨(h.front y (mem_of_mem_filter hy)).1, by simpa using (mem_filter.mp hy).2⟩
        apart := h.apart.sublist (filter_sublist.append_right _) }⟩
  | endTo k =>
    rw [Packed.step]
    cases hk : s.rear[k]? with
    | none => exact ⟨s, rfl, h⟩
    | some x =>
      obtain ⟨hlow, hhigh⟩ := h.rear x (mem_of_getElem? hk)
      dsimp only
      rw [PackAllocator.setEndPos, if_pos (by omega)]
      exact ⟨_, rfl, { h with
        order := horder.trans hlow
        fin := by dsimp only; omega
        rear := fun y hy => ⟨by simpa using (mem_filter.mp hy).2, (h.rear y (mem_of_mem_filter hy)).2⟩
        apart := h.apart.sublist (filter_sublist.append_left _) }⟩
  | resetEnd =>
    exact ⟨_, rfl, { h with
      order := horder.trans hfin
      fin := le_rfl
      rear := nofun
      apart := h.apart.sublist ((nil_sublist _).append_left _) }⟩

end Packed

/-- **The pack allocator.** Every run on a block of less than 2^31 bytes keeps the positions in
order and what is in use in the block and apart. -/
theorem pack_allocator_good (memblock : Nat) {size : Nat} (hsize : size < 2 ^ 31) (ops : List PackOp)
    (hops : ∀ op ∈ ops, op.Sized) :
    ∃ s, ops.foldlM Packed.step { toPackAllocator := initPackAllocator memblock size } = some s ∧
      s.Good memblock size := by
  have hgood : Packed.Good { toPackAllocator := initPackAllocator memblock size } memblock size := by
    have hle : alignedOffset size ≤ size := by
      rw [alignedOffset_eq]
      omega
    exact ⟨rfl, le_rfl, Nat.le_add_right _ _, le_rfl, Nat.add_le_add_left hle _, nofun, nofun, .nil⟩
  revert hgood
  generalize ({ toPackAllocator := initPackAllocator memblock size } : Packed) = s
  intro hgood
  induction ops generalizing s with
  | nil => exact ⟨s, rfl, hgood⟩
  | cons op ops ih =>
    obtain ⟨hop, hops⟩ := forall_mem_cons.mp hops
    obtain ⟨s', hstep, hgood'⟩ := hgood.step hsize hop
    rw [foldlM_cons, hstep]
    exact ih hops s' hgood'

theorem pack_allocator_good_pops :
    ∃ s, [PackOp.front 5 false, .rear 3 true, .rear 0 false, .front 8 true, .endTo 1, .startTo 0,
        .resetEnd].foldlM Packed.step { toPackAllocator := initPackAllocator 100 64 } = some s ∧
      s.Good 100 64 :=
  pack_allocator_good 100 (by decide) _ (by simp [PackOp.Sized])

end CIcap
