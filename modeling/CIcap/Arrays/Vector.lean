import CIcap.Lib.CText

/-! # Vectors

The vectors of `array.c` on the pack allocator of `mem.c`. A vector is one block of memory: the
structures of the allocator and of the vector stand at its front, behind them the array of pointers
to the items, and the items are allocated from the rear. Positions are offsets in the block; the
array of pointers is a list of them. What the two ends leave is computed in an `int` (`room`).
-/

namespace CIcap

open List

/-- `_CI_ALIGN` -/
def ciAlign (n : Nat) : Nat := (n + 7) / 8 * 8

/-- `_ALIGNED_OFFSET` -/
def alignedOffset (off : Nat) : Nat := if off ≠ ciAlign off then ciAlign (off - 8) else off

theorem alignedOffset_eq (off : Nat) : alignedOffset off = 8 * (off / 8) := by
  unfold alignedOffset ciAlign
  split_ifs with h <;> omega

theorem le_ciAlign (n : Nat) : n ≤ ciAlign n := by
  unfold ciAlign
  omega

def sizeofPackAllocator : Nat := 40
def sizeofMemAllocator : Nat := 56
def sizeofVector : Nat := 56
def sizeofPtr : Nat := 8

/-! ## The pack allocator -/

structure Packer where
  curpos : Nat
  endpos : Nat
deriving DecidableEq

namespace Packer

/-- `endpos - curpos`, stored in an `int`. -/
def room (p : Packer) : Int := ((p.endpos : Int) - p.curpos).bmod (2 ^ 32)

/-- `ci_pack_allocator_alloc_unaligned`; the comparison is one of `size_t`. -/
def allocUnaligned (p : Packer) (size : Nat) : Option (Nat × Packer) :=
  if p.room % 2 ^ 64 < size then none
  else some (p.curpos, { p with curpos := p.curpos + size })

/-- `ci_pack_allocator_alloc` -/
def alloc (p : Packer) (size : Nat) : Option (Nat × Packer) := p.allocUnaligned (ciAlign size)

/-- `ci_pack_allocator_alloc_from_rear2`. The size is an `int`: `none` also stands for one that is
not, of which the caller then copies more than was allocated. -/
def allocFromRear2 (p : Packer) (size : Nat) (align : Bool) : Option (Nat × Packer) :=
  let size := if align then ciAlign size else size
  if 2 ^ 31 ≤ size ∨ p.room < size then none
  else some (p.endpos - size, { p with endpos := p.endpos - size })

/-- `ci_create_pack_allocator_on_memblock` -/
def onMemblock (size : Nat) : Option Packer :=
  let used := ciAlign sizeofPackAllocator + ciAlign sizeofMemAllocator
  if size ≤ used then none
  else some { curpos := used, endpos := used + alignedOffset (size - used) }

variable {p : Packer} (h : p.curpos ≤ p.endpos)
include h

/-- What is left in the `int`: what is left, without the high bits and as a signed number. -/
theorem room_eq : p.room = if (p.endpos - p.curpos) % 2 ^ 32 < 2 ^ 31 then
      (((p.endpos - p.curpos) % 2 ^ 32 : Nat) : Int)
      else (((p.endpos - p.curpos) % 2 ^ 32 : Nat) : Int) - 2 ^ 32 := by
  unfold room
  rw [← Nat.cast_sub h, Int.bmod_def]
  split_ifs <;> omega

theorem allocUnaligned_eq {size : Nat} (hsize : size ≤ 2 ^ 31) : p.allocUnaligned size =
      if (p.endpos - p.curpos) % 2 ^ 32 < size then none
      else some (p.curpos, { p with curpos := p.curpos + size }) := by
  have hiff : p.room % 2 ^ 64 < size ↔ (p.endpos - p.curpos) % 2 ^ 32 < size := by
    rw [room_eq h]
    split_ifs <;> omega
  unfold allocUnaligned
  simp only [hiff]

theorem allocUnaligned_ptr :
    p.allocUnaligned sizeofPtr =
      if (p.endpos - p.curpos) % 2 ^ 32 < 8 then none
      else some (p.curpos, { p with curpos := p.curpos + 8 }) :=
  allocUnaligned_eq h (by decide)

theorem allocFromRear2_eq_some {q : Packer} {size off : Nat} {align : Bool} (heq : p.allocFromRear2 size align = some (off, q)) :
    q.curpos = p.curpos ∧ q.endpos = off ∧ off + size ≤ p.endpos ∧ p.curpos ≤ off := by
  unfold allocFromRear2 at heq
  have hle : size ≤ (if align then ciAlign size else size) := by
    split_ifs
    · exact le_ciAlign size
    · exact le_rfl
  generalize (if align then ciAlign size else size) = n at heq hle
  dsimp only at heq
  rw [room_eq h] at heq
  split_ifs at heq with hlow hfail
  all_goals
    cases heq
    refine ⟨rfl, rfl, ?_, ?_⟩ <;> omega

theorem allocFromRear2_align (size : Nat) : p.allocFromRear2 size true =
      if ciAlign size ≤ (p.endpos - p.curpos) % 2 ^ 32 ∧
          (p.endpos - p.curpos) % 2 ^ 32 < 2 ^ 31 then
        some (p.endpos - ciAlign size, { p with endpos := p.endpos - ciAlign size })
      else none := by
  have hiff : (2 ^ 31 ≤ ciAlign size ∨ p.room < ciAlign size) ↔
      ¬ (ciAlign size ≤ (p.endpos - p.curpos) % 2 ^ 32 ∧
        (p.endpos - p.curpos) % 2 ^ 32 < 2 ^ 31) := by
    rw [room_eq h]
    split_ifs <;> omega
  unfold allocFromRear2
  rw [if_pos rfl]
  simp only [hiff, ite_not]

end Packer

/-! ## Vectors of items -/

/-- What `malloc` returns: the contents of a new block are not known. -/
structure Malloc where
  block : Nat → List UInt8
  length_block : ∀ n, (block n).length = n

/-- `ci_vector_t` -/
structure CVector where
  maxSize : Nat
  mem : List UInt8
  items : List Nat
  alloc : Packer
  align : Bool
deriving DecidableEq

namespace CVector

/-- `ci_vector_create`, for a block that could be allocated -/
def create (m : Malloc) (maxSize : Nat) : Option CVector := do
  let p ← Packer.onMemblock maxSize
  let (_, p) ← p.alloc sizeofVector
  let (_, p) ← p.allocUnaligned sizeofPtr
  some { maxSize, mem := m.block maxSize, items := [], alloc := p, align := true }

/-- `ci_vector_set_align` -/
def setAlign (v : CVector) (onoff : Bool) : CVector := { v with align := onoff }

/-- `ci_vector_add`; a failed call is `none`. -/
def add (v : CVector) (value : List UInt8) : Option CVector := do
  let (_, p) ← v.alloc.allocUnaligned sizeofPtr
  let (item, p) ← p.allocFromRear2 value.length v.align
  some { v with
    mem := v.mem.take item ++ value ++ v.mem.drop (item + value.length)
    items := v.items ++ [item]
    alloc := p }

/-- `ci_str_vector_create` -/
def strCreate (m : Malloc) (maxSize : Nat) : Option CVector :=
  (create m maxSize).map fun v => v.setAlign false

/-- `ci_str_vector_add` -/
def strAdd (v : CVector) (string : List UInt8) : Option CVector := v.add (string ++ [0])

/-- The string at a position of the block. -/
def cstring (mem : List UInt8) (off : Nat) : List UInt8 := (mem.drop off).takeWhile (· ≠ 0)

def strings (v : CVector) : List (List UInt8) := v.items.map (cstring v.mem)

/-- A vector of strings that was built without a failure. -/
inductive Built : CVector → List (List UInt8) → Prop
  | create {m : Malloc} {maxSize : Nat} {v : CVector} : create m maxSize = some v → Built v []
  | setAlign {v : CVector} {strs : List (List UInt8)} (onoff : Bool) :
      Built v strs → Built (v.setAlign onoff) strs
  | add {v v' : CVector} {strs : List (List UInt8)} {s : List UInt8} :
      Built v strs → 0 ∉ s → v.strAdd s = some v' → Built v' (strs ++ [s])

/-! ## The layout of a vector -/

/-- Items of a block hold strings, each below the one before and the first below `top`. -/
def Regions (mem : List UInt8) : Nat → List Nat → List (List UInt8) → Prop
  | _, [], [] => True
  | top, off :: offs, s :: strs =>
    off + (s.length + 1) ≤ top ∧ 0 ∉ s ∧ (s ++ [0]) <+: mem.drop off ∧ Regions mem off offs strs
  | _, _, _ => False

structure Layout (v : CVector) (strs : List (List UInt8)) : Prop where
  length : v.mem.length = v.maxSize
  ends : v.alloc.curpos ≤ v.alloc.endpos
  endpos_le : v.alloc.endpos ≤ v.maxSize
  above : ∀ off ∈ v.items, v.alloc.endpos ≤ off
  regions : Regions v.mem v.maxSize v.items strs

variable {mem value : List UInt8} {top : Nat} {offs : List Nat} {strs : List (List UInt8)}
  {v v' : CVector}

section

variable (h : Regions mem top offs strs)
include h

theorem Regions.frame {mem' : List UInt8}
    (heq : ∀ off ∈ offs, mem'.drop off = mem.drop off) : Regions mem' top offs strs := by
  fun_induction Regions mem top offs strs with
  | case1 => trivial
  | case2 _ off offs s strs ih =>
    obtain ⟨hfit, hzero, hpre, hrest⟩ := h
    refine ⟨hfit, hzero, ?_, ih hrest (forall_mem_cons.mp heq).2⟩
    rw [heq off mem_cons_self]
    exact hpre
  | case3 => exact h.elim

theorem Regions.concat {off : Nat} {s : List UInt8}
    (htop : off + (s.length + 1) ≤ top) (hoffs : ∀ o ∈ offs, off + (s.length + 1) ≤ o)
    (hzero : 0 ∉ s) (hpre : (s ++ [0]) <+: mem.drop off) :
    Regions mem top (offs ++ [off]) (strs ++ [s]) := by
  fun_induction Regions mem top offs strs with
  | case1 => exact ⟨htop, hzero, hpre, trivial⟩
  | case2 _ o offs s' strs ih =>
    obtain ⟨hfit, hz, hp, hrest⟩ := h
    exact ⟨hfit, hz, hp, ih hrest (hoffs o mem_cons_self) (forall_mem_cons.mp hoffs).2⟩
  | case3 => exact h.elim

/-- The strings of a vector are those of its layout. -/
theorem Regions.strings : offs.map (cstring mem) = strs := by
  fun_induction Regions mem top offs strs with
  | case1 => rfl
  | case2 _ off offs s strs ih =>
    obtain ⟨-, hzero, ⟨rest, hrest⟩, hmore⟩ := h
    have hs : cstring mem off = s := by
      unfold cstring
      rw [← hrest, append_assoc, takeWhile_append_of_pos]
      · simp
      · intro b hb
        simp only [decide_not, Bool.not_eq_eq_eq_not, Bool.not_true, decide_eq_false_iff_not]
        rintro rfl
        exact hzero hb
    rw [map_cons, hs, ih hmore]
  | case3 => exact h.elim

end

theorem drop_overwrite {item off : Nat}
    (hle : item + value.length ≤ off) (hitem : item ≤ mem.length) :
    (mem.take item ++ value ++ mem.drop (item + value.length)).drop off = mem.drop off := by
  have hl : (mem.take item ++ value).length = item + value.length := by
    rw [length_append, length_take]
    omega
  rw [drop_append, drop_eq_nil_of_le (by omega), nil_append, drop_drop]
  congr 1
  omega

/-- **Adding an item** keeps the layout; `value` is the string and what is copied behind it. -/
theorem Layout.add {s : List UInt8}
    (h : Layout v strs) (hzero : 0 ∉ s) (hpre : (s ++ [0]) <+: value)
    (hadd : v.add value = some v') :
    Layout v' (strs ++ [s]) ∧ v'.maxSize = v.maxSize ∧ v'.align = v.align := by
  unfold CVector.add at hadd
  rw [Packer.allocUnaligned_ptr h.ends] at hadd
  split_ifs at hadd with hroom
  · cases hadd
  have hcur : v.alloc.curpos + 8 ≤ v.alloc.endpos := by omega
  rw [Option.bind_eq_bind, Option.bind_some] at hadd
  rw [Option.bind_eq_some_iff] at hadd
  obtain ⟨⟨item, q⟩, hrear, hv'⟩ := hadd
  cases hv'
  obtain ⟨hqcur, hqend, hfit, hlow⟩ := Packer.allocFromRear2_eq_some hcur hrear
  dsimp only at hqcur hqend hfit hlow
  have hs : s.length + 1 ≤ value.length := by
    have hle := hpre.length_le
    rwa [length_append] at hle
  have hend := h.endpos_le
  have hmem := h.length
  have habove := h.above
  refine ⟨⟨?_, ?_, ?_, ?_, ?_⟩, rfl, rfl⟩
  · simp only [length_append, length_take, length_drop]
    omega
  · dsimp only
    omega
  · dsimp only
    omega
  · intro off hoff
    dsimp only at hoff ⊢
    rw [mem_append, mem_singleton] at hoff
    rcases hoff with hoff | rfl
    · have hge := habove off hoff
      omega
    · omega
  · refine Regions.concat (h.regions.frame fun off hoff => ?_) (by omega) (fun o ho => ?_) hzero ?_
    · have hge := habove off hoff
      exact drop_overwrite (by omega) (by omega)
    · have hge := habove o ho
      omega
    · rw [append_assoc, drop_append_of_le_length (by rw [length_take]; omega), drop_eq_nil_of_le (by rw [length_take]; omega)]
      exact hpre.trans (prefix_append _ _)

theorem onMemblock_eq {size : Nat} {p : Packer} (h : Packer.onMemblock size = some p) :
    p.curpos = 96 ∧ p.endpos = 8 * (size / 8) ∧ 96 < size := by
  have hused : ciAlign sizeofPackAllocator + ciAlign sizeofMemAllocator = 96 := rfl
  unfold Packer.onMemblock at h
  simp only [alignedOffset_eq] at h
  split_ifs at h with hle
  cases h
  exact ⟨rfl, by dsimp only; omega, by omega⟩

/-- A new vector is empty; its structures and the end of its array of pointers take 160 bytes. -/
theorem create_eq {m : Malloc} {maxSize : Nat} (h : create m maxSize = some v) :
    Layout v [] ∧ v.maxSize = maxSize ∧ v.items = [] ∧ v.align = true ∧
      v.alloc = { curpos := 160, endpos := 8 * (maxSize / 8) } := by
  unfold create at h
  rw [Option.bind_eq_bind, Option.bind_eq_some_iff] at h
  obtain ⟨⟨cur, ep⟩, hp, h⟩ := h
  obtain ⟨rfl, rfl, hsize⟩ := onMemblock_eq hp
  have hvec : ciAlign sizeofVector = 56 := rfl
  rw [Packer.alloc, Packer.allocUnaligned_eq (by dsimp only; omega) (by decide)] at h
  split_ifs at h with hroom
  · cases h
  rw [Option.bind_eq_bind, Option.bind_some] at h
  dsimp only at h hroom
  rw [Packer.allocUnaligned_ptr (by dsimp only; omega)] at h
  split_ifs at h with hroom'
  · cases h
  cases h
  dsimp only at hroom'
  exact ⟨⟨m.length_block maxSize, by dsimp only; omega, by dsimp only; omega,
    fun _ hoff => (nomatch hoff), trivial⟩, rfl, rfl, rfl, rfl⟩

theorem create_isSome (m : Malloc) (maxSize : Nat) (hlow : 160 ≤ maxSize)
    (hhigh : maxSize < 2 ^ 32) : ∃ v, create m maxSize = some v := by
  have hused : ciAlign sizeofPackAllocator + ciAlign sizeofMemAllocator = 96 := rfl
  have hvec : ciAlign sizeofVector = 56 := rfl
  unfold create Packer.onMemblock
  simp only [alignedOffset_eq]
  rw [if_neg (by omega), Option.bind_eq_bind, Option.bind_some, Packer.alloc, Packer.allocUnaligned_eq (by dsimp only; omega) (by decide), if_neg (by dsimp only; omega), Option.bind_eq_bind, Option.bind_some]
  rw [Packer.allocUnaligned_ptr (by dsimp only; omega), if_neg (by dsimp only; omega)]
  exact ⟨_, rfl⟩

theorem Built.layout (h : Built v strs) : Layout v strs := by
  induction h with
  | create hcreate => exact (create_eq hcreate).1
  | setAlign onoff _ ih => exact { ih with }
  | add _ hzero hadd ih => exact (ih.add hzero prefix_rfl hadd).1

/-! ## Adding several items -/

/-- The bytes that items of these lengths take from a vector that aligns them. -/
def need : List Nat → Nat
  | [] => 0
  | n :: ns => 8 + ciAlign n + need ns

def addAll (v : CVector) : List (List UInt8) → Option CVector
  | [] => some v
  | value :: values => (v.add value).bind fun v => v.addAll values

/-- An item fits if its pointer and its bytes do, counted as the `int` counts them. -/
def Fits (v : CVector) (n : Nat) : Prop :=
  8 ≤ v.alloc.endpos - v.alloc.curpos ∧
    ciAlign n ≤ (v.alloc.endpos - v.alloc.curpos - 8) % 2 ^ 32 ∧
    (v.alloc.endpos - v.alloc.curpos - 8) % 2 ^ 32 < 2 ^ 31

variable (h : v.alloc.curpos ≤ v.alloc.endpos) (halign : v.align = true)
include h halign

theorem add_of_fits (value : List UInt8) (hfits : v.Fits value.length) :
    ∃ v', v.add value = some v' ∧ v'.align = true ∧ v'.alloc =
      { curpos := v.alloc.curpos + 8, endpos := v.alloc.endpos - ciAlign value.length } := by
  obtain ⟨hptr, hbytes, hint⟩ := hfits
  unfold add
  rw [Packer.allocUnaligned_ptr h, if_neg (by omega), Option.bind_eq_bind, Option.bind_some]
  dsimp only
  rw [halign, Packer.allocFromRear2_align (by dsimp only; omega),
    if_pos (by dsimp only; rw [Nat.sub_add_eq]; exact ⟨hbytes, hint⟩)]
  exact ⟨_, rfl, rfl, rfl⟩

theorem fits_of_add (hadd : v.add value = some v') : v.Fits value.length := by
  unfold add at hadd
  rw [Packer.allocUnaligned_ptr h] at hadd
  split_ifs at hadd with hroom
  · cases hadd
  rw [Option.bind_eq_bind, Option.bind_some] at hadd
  dsimp only at hadd
  rw [halign, Packer.allocFromRear2_align (by dsimp only; omega)] at hadd
  split_ifs at hadd with hfit
  · exact ⟨by omega, hfit⟩
  · cases hadd

theorem addAll_of_need
    (values : List (List UInt8)) (hint : v.alloc.endpos - v.alloc.curpos < 2 ^ 31 + 8)
    (hneed : need (values.map length) ≤ v.alloc.endpos - v.alloc.curpos) :
    ∃ v', v.addAll values = some v' := by
  induction values generalizing v with
  | nil => exact ⟨v, rfl⟩
  | cons value values ih =>
    rw [map_cons, need] at hneed
    obtain ⟨v', hadd, halign', halloc⟩ := add_of_fits h halign value ⟨by omega, by omega, by omega⟩
    rw [addAll, hadd]
    exact ih (by rw [halloc]; dsimp only; omega) halign' (by rw [halloc]; dsimp only; omega)
      (by rw [halloc]; dsimp only; omega)

/-- What items that could be added took: never more than the `int` counts. -/
theorem need_of_addAll {values : List (List UInt8)} (hadd : v.addAll (value :: values) = some v') :
    v.Fits value.length ∧ need ((value :: values).map length) ≤
      (v.alloc.endpos - v.alloc.curpos - 8) % 2 ^ 32 + 8 := by
  induction values generalizing v value with
  | nil =>
    rw [addAll, Option.bind_eq_some_iff] at hadd
    obtain ⟨w, hw, -⟩ := hadd
    have hfits := fits_of_add h halign hw
    refine ⟨hfits, ?_⟩
    rw [map_singleton, need, need]
    have hle := hfits.2.1
    omega
  | cons next values ih =>
    rw [addAll, Option.bind_eq_some_iff] at hadd
    obtain ⟨w, hw, hrest⟩ := hadd
    have hfits := fits_of_add h halign hw
    obtain ⟨w', hw', halign', halloc⟩ := add_of_fits h halign value hfits
    rw [hw, Option.some.injEq] at hw'
    subst hw'
    have hcur : w.alloc.curpos = v.alloc.curpos + 8 := by rw [halloc]
    have hend : w.alloc.endpos = v.alloc.endpos - ciAlign value.length := by rw [halloc]
    obtain ⟨hroom, hbytes, hint⟩ := id hfits
    obtain ⟨⟨hroom', -, hint'⟩, hneed⟩ := ih (by omega) halign' hrest
    refine ⟨hfits, ?_⟩
    rw [map_cons, need]
    rw [hcur] at hroom' hint' hneed
    -- the rest was counted below this item, or the count had gone below zero
    omega

end CVector

end CIcap
