import CIcap.Arrays.Vector

/-! # Flat arrays

A flat array holds a vector in one piece of memory without pointers: its size, the positions of
the items with a zero behind them, and the bytes of the items, all positions counted from its
front. The caches store vectors in this form (`ci_cache_store_vector_val`) and build a new vector
when they read one (`ci_cache_read_vector_val`). The sizes of the items are the distances of their
positions, so what was left free between two items is copied as part of the second.
-/

namespace CIcap

open CVector List

/-- The words of a flat array, without the last zero, and its bytes. -/
structure Flat where
  size : Nat
  index : List Nat
  data : List UInt8

/-- The words of a flat array take these bytes. -/
def Flat.base (f : Flat) : Nat := 8 * (f.index.length + 2)

/-- `ci_flat_array_build_from_vector_to` without a buffer: the size of the flat array. Of an empty
vector it reads `items[-1]`, which is `none` here. -/
def flatSize (v : CVector) : Option Nat := do
  let start ← v.items.getLast?
  some (sizeofPtr + (v.items.length + 1) * sizeofPtr + (v.maxSize - start))

/-- `ci_flat_array_build_from_vector_to` into a buffer of `bufSize` bytes -/
def flatBuild (v : CVector) (bufSize : Nat) : Option Flat := do
  let start ← v.items.getLast?
  let dataSize := v.maxSize - start
  let indxSize := (v.items.length + 1) * sizeofPtr
  let size := sizeofPtr + indxSize + dataSize
  let index := v.items.map fun off => off - start + indxSize + sizeofPtr
  if bufSize < size ∨ ¬ index.all (· ≤ size) then none
  else some { size, index, data := (v.mem.drop start).take dataSize }

/-- `ci_cache_store_vector_val` -/
def cacheStoreVectorVal (v : CVector) (bufSize : Nat) : Option Flat :=
  if bufSize = 0 then none else flatBuild v bufSize

/-- Each number is at most the one before it. -/
def descends : Nat → List Nat → Bool
  | _, [] => true
  | prev, off :: offs => decide (off ≤ prev) && descends off offs

/-- `ci_flat_array_check`. Of an empty array it reads behind the words. -/
def Flat.check (f : Flat) : Option Bool :=
  if f.index = [] then none else some (descends f.size f.index)

/-- `ci_flat_array_copy_to_ci_vector_t`: the loop over `ci_flat_array_item`, where `endPos` is the
end of the item. -/
def Flat.copyTo (f : Flat) : Nat → List Nat → CVector → Option CVector
  | _, [], v => some v
  | endPos, off :: offs, v =>
    if endPos < off then none
    else (v.add ((f.data.drop (off - f.base)).take (endPos - off))).bind (f.copyTo off offs)

/-- `ci_flat_array_to_ci_vector_t` -/
def Flat.toVector (m : Malloc) (f : Flat) : Option CVector :=
  (create m (f.size + 1024)).bind (f.copyTo f.size f.index)

/-- `ci_cache_read_vector_val` -/
def cacheReadVectorVal (m : Malloc) (f : Flat) (valSize : Nat) : Option CVector := do
  if valSize = 0 then none
  else if valSize < f.size then none
  else
    let ok ← f.check
    if ok then f.toVector m else none

/-- Store a vector in a buffer of the size that it asks for, and read it. -/
def storeAndRead (m : Malloc) (v : CVector) : Option CVector := do
  let size ← flatSize v
  let flat ← cacheStoreVectorVal v size
  cacheReadVectorVal m flat size

/-! ## Distances -/

/-- The distances of positions, from `top` down: what an item takes with what is free above it. -/
def gaps : Nat → List Nat → List Nat
  | _, [] => []
  | top, off :: offs => (top - off) :: gaps off offs

/-- What a vector that aligns its items has to leave free. -/
def CVector.padding (v : CVector) : Nat :=
  ((gaps v.maxSize v.items).map fun n => ciAlign n - n).sum

theorem need_eq (ns : List Nat) :
    need ns = 8 * ns.length + ns.sum + (ns.map fun n => ciAlign n - n).sum := by
  induction ns with
  | nil => rfl
  | cons n ns ih =>
    have hle := le_ciAlign n
    rw [need, length_cons, sum_cons, map_cons, sum_cons]
    omega

theorem eight_dvd_need (ns : List Nat) : 8 ∣ need ns := by
  induction ns with
  | nil => exact ⟨0, rfl⟩
  | cons n ns ih =>
    rw [need]
    unfold ciAlign
    omega

theorem length_gaps (top : Nat) (offs : List Nat) : (gaps top offs).length = offs.length := by
  induction offs generalizing top with
  | nil => rfl
  | cons off offs ih => rw [gaps, length_cons, length_cons, ih]

section Regions

variable {mem : List UInt8} {top : Nat} {offs : List Nat} {strs : List (List UInt8)}

theorem CVector.Regions.last_le (h : Regions mem top offs strs) {start : Nat}
    (hlast : offs.getLast? = some start) :
    (∀ off ∈ offs, start ≤ off) ∧ start ≤ top ∧ (gaps top offs).sum = top - start := by
  fun_induction Regions mem top offs strs with
  | case1 => cases hlast
  | case2 top off offs s strs ih =>
    obtain ⟨hfit, -, -, hrest⟩ := h
    cases offs with
    | nil =>
      obtain rfl : off = start := by simpa using hlast
      refine ⟨fun o ho => ?_, by omega, by simp [gaps]⟩
      rw [mem_singleton.mp ho]
    | cons off' offs =>
      obtain ⟨hall, hle, hsum⟩ := ih hrest hlast
      refine ⟨fun o ho => ?_, by omega, ?_⟩
      · rcases mem_cons.mp ho with rfl | ho
        · exact hle
        · exact hall o ho
      · rw [gaps, sum_cons]
        omega
  | case3 => exact h.elim

theorem CVector.Regions.descends (h : Regions mem top offs strs) {start base : Nat}
    (hall : ∀ off ∈ offs, start ≤ off) (htop : start ≤ top) :
    descends (top - start + base) (offs.map fun off => off - start + base) = true := by
  fun_induction Regions mem top offs strs with
  | case1 => rfl
  | case2 top off offs s strs ih =>
    obtain ⟨hfit, -, -, hrest⟩ := h
    rw [map_cons, CIcap.descends, ih hrest ((forall_mem_cons.mp hall).2) (hall off mem_cons_self),
      Bool.and_true]
    exact decide_eq_true (by omega)
  | case3 => exact h.elim

/-- The bytes of the items, each with what is free above it. -/
def slices (mem : List UInt8) : Nat → List Nat → List (List UInt8)
  | _, [] => []
  | top, off :: offs => (mem.drop off).take (top - off) :: slices mem off offs

variable (h : Regions mem top offs strs)
include h

theorem CVector.Regions.length_slices (htop : top ≤ mem.length) :
    (slices mem top offs).map length = gaps top offs := by
  fun_induction Regions mem top offs strs with
  | case1 => rfl
  | case2 top off offs s strs ih =>
    obtain ⟨hfit, -, -, hrest⟩ := h
    rw [slices, map_cons, ih hrest (by omega), length_take, length_drop]
    congr 1
    omega
  | case3 => exact h.elim

/-- The loop over the items of a flat array adds these bytes. -/
theorem CVector.Regions.copyTo_eq {f : Flat} {start : Nat}
    (hdata : f.data = mem.drop start) (hall : ∀ off ∈ offs, start ≤ off) (htop : start ≤ top)
    (v : CVector) :
    f.copyTo (top - start + f.base) (offs.map fun off => off - start + f.base) v =
      v.addAll (slices mem top offs) := by
  fun_induction Regions mem top offs strs generalizing v with
  | case1 => rfl
  | case2 top off offs s strs ih =>
    obtain ⟨hfit, -, -, hrest⟩ := h
    have hoff : start ≤ off := hall off mem_cons_self
    have hrec := ih hrest ((forall_mem_cons.mp hall).2) hoff
    have hpos : start + (off - start + f.base - f.base) = off := by omega
    have hsize : top - start + f.base - (off - start + f.base) = top - off := by omega
    rw [map_cons, Flat.copyTo, if_neg (by omega), hdata, drop_drop, hpos, hsize]
    congr 1
    funext w
    exact hrec w
  | case3 => exact h.elim

theorem CVector.Regions.layout_addAll {v v' : CVector}
    {before : List (List UInt8)} (hv : Layout v before)
    (hadd : v.addAll (slices mem top offs) = some v') : Layout v' (before ++ strs) := by
  fun_induction Regions mem top offs strs generalizing v before with
  | case1 =>
    cases hadd
    rw [append_nil]
    exact hv
  | case2 top off offs s strs ih =>
    obtain ⟨hfit, hzero, hpre, hrest⟩ := h
    rw [slices, addAll, Option.bind_eq_some_iff] at hadd
    obtain ⟨w, hw, hadd⟩ := hadd
    have hitem : (s ++ [0]) <+: (mem.drop off).take (top - off) := by
      rw [prefix_take_iff, length_append]
      exact ⟨hpre, by simp only [length_singleton]; omega⟩
    have hnext := ih hrest (hv.add hzero hitem hw).1 hadd
    rw [append_assoc] at hnext
    exact hnext
  | case3 => exact h.elim

end Regions

/-! ## The round trip -/

section RoundTrip

variable {v : CVector} {strs : List (List UInt8)} {start : Nat}

/-- The flat array of a vector whose last item is at `start`. -/
def flatOf (v : CVector) (start : Nat) : Flat where
  size := v.maxSize - start + 8 * (v.items.length + 2)
  index := v.items.map fun off => off - start + 8 * (v.items.length + 2)
  data := v.mem.drop start

theorem base_flatOf : (flatOf v start).base = 8 * (v.items.length + 2) := by
  rw [Flat.base, flatOf, length_map]

theorem flatSize_eq (hlast : v.items.getLast? = some start) :
    flatSize v = some (flatOf v start).size := by
  unfold flatSize sizeofPtr flatOf
  rw [hlast, Option.bind_eq_bind, Option.bind_some]
  dsimp only
  congr 1
  omega

variable (h : Layout v strs)
include h

theorem descends_flatOf (hlast : v.items.getLast? = some start) :
    descends (flatOf v start).size (flatOf v start).index = true := by
  obtain ⟨hall, hle, -⟩ := h.regions.last_le hlast
  exact h.regions.descends hall hle

theorem flatBuild_eq (hlast : v.items.getLast? = some start) :
    flatBuild v (flatOf v start).size = some (flatOf v start) := by
  have hle : ∀ {prev : Nat} {offs : List Nat}, descends prev offs = true →
      ∀ off ∈ offs, off ≤ prev := by
    intro prev offs
    induction offs generalizing prev with
    | nil => intro _ off hoff; cases hoff
    | cons o offs ih =>
      intro hd off hoff
      rw [descends, Bool.and_eq_true, decide_eq_true_iff] at hd
      rcases mem_cons.mp hoff with rfl | hoff
      · exact hd.1
      · exact (ih hd.2 off hoff).trans hd.1
  have hsize : sizeofPtr + (v.items.length + 1) * sizeofPtr + (v.maxSize - start) =
      (flatOf v start).size := by
    unfold sizeofPtr flatOf
    dsimp only
    omega
  have hindex : (v.items.map fun off => off - start + (v.items.length + 1) * sizeofPtr + sizeofPtr) =
      (flatOf v start).index := by
    unfold sizeofPtr flatOf
    refine map_congr_left fun off _ => ?_
    omega
  have hall : (flatOf v start).index.all (· ≤ (flatOf v start).size) = true := by
    rw [all_eq_true]
    intro off hoff
    exact decide_eq_true (hle (descends_flatOf h hlast) off hoff)
  have hdata : (v.mem.drop start).take (v.maxSize - start) = (flatOf v start).data := by
    rw [flatOf, take_of_length_le]
    rw [length_drop, h.length]
  unfold flatBuild
  rw [hlast, Option.bind_eq_bind, Option.bind_some]
  dsimp only
  rw [hsize, hindex, hdata]
  rw [hall]
  simp

/-- Storing and reading adds the items, with what is free above them, to a new vector. -/
theorem storeAndRead_eq (m : Malloc) (hlast : v.items.getLast? = some start) :
    storeAndRead m v = (create m ((flatOf v start).size + 1024)).bind
      fun w => w.addAll (slices v.mem v.maxSize v.items) := by
  obtain ⟨hall, hle, -⟩ := h.regions.last_le hlast
  have hne : (flatOf v start).index ≠ [] := by
    rintro hnil
    rw [map_eq_nil_iff.mp hnil] at hlast
    cases hlast
  have hpos : (flatOf v start).size ≠ 0 := by
    unfold flatOf
    dsimp only
    omega
  have hread : (flatOf v start).toVector m = (create m ((flatOf v start).size + 1024)).bind
      fun w => w.addAll (slices v.mem v.maxSize v.items) := by
    unfold Flat.toVector
    congr 1
    funext w
    have hcopy := h.regions.copyTo_eq (f := flatOf v start) rfl hall hle w
    rw [base_flatOf] at hcopy
    exact hcopy
  unfold storeAndRead
  rw [flatSize_eq hlast, Option.bind_eq_bind, Option.bind_some, cacheStoreVectorVal, if_neg hpos, flatBuild_eq h hlast, Option.bind_eq_bind, Option.bind_some, cacheReadVectorVal, if_neg (Nat.lt_irrefl _), Flat.check, if_neg hne, descends_flatOf h hlast, Option.bind_eq_bind, Option.bind_some]
  exact hread

/-- What can be read: the vector has an item, and a new vector takes its items with their
alignment. -/
theorem storeAndRead_isSome_iff (m : Malloc) :
    (∃ v', storeAndRead m v = some v') ↔ ∃ size, flatSize v = some size ∧ v.padding ≤ 880 ∧
      8 * ((size + 1024) / 8) < 2 ^ 31 + 168 := by
  cases hlast : v.items.getLast? with
  | none =>
    -- the position of the last item is read in front of the array
    have hsize : flatSize v = none := by
      unfold flatSize
      rw [hlast]
      rfl
    have hnone : storeAndRead m v = none := by
      unfold storeAndRead
      rw [hsize]
      rfl
    rw [hsize, hnone]
    simp
  | some start =>
    obtain ⟨-, hle, hsum⟩ := h.regions.last_le hlast
    have hlen := h.regions.length_slices h.length.ge
    have hneed : need (gaps v.maxSize v.items) =
        8 * v.items.length + (v.maxSize - start) + v.padding := by
      rw [need_eq, length_gaps, hsum]
      rfl
    have hdvd := eight_dvd_need (gaps v.maxSize v.items)
    have hflat : (flatOf v start).size = v.maxSize - start + 8 * (v.items.length + 2) := rfl
    rw [flatSize_eq hlast, storeAndRead_eq h m hlast]
    constructor
    · rintro ⟨v', hread⟩
      refine ⟨_, rfl, ?_⟩
      rw [Option.bind_eq_some_iff] at hread
      obtain ⟨w, hw, hadd⟩ := hread
      obtain ⟨hl, -, -, halign, halloc⟩ := create_eq hw
      have hcons : ∃ value values, slices v.mem v.maxSize v.items = value :: values := by
        cases hitems : v.items with
        | nil => rw [hitems] at hlast; cases hlast
        | cons off offs => exact ⟨_, _, rfl⟩
      obtain ⟨value, values, hvalues⟩ := hcons
      rw [hvalues] at hadd hlen
      obtain ⟨⟨hptr, -, hint⟩, hroom⟩ := need_of_addAll hl.ends halign hadd
      rw [hlen] at hroom
      rw [halloc] at hptr hint hroom
      dsimp only at hptr hint hroom
      omega
    · rintro ⟨size, hsize, hpad, hint⟩
      cases hsize
      obtain ⟨w, hw⟩ := create_isSome m ((flatOf v start).size + 1024) (by omega) (by omega)
      obtain ⟨hl, -, -, halign, halloc⟩ := create_eq hw
      rw [hw]
      exact addAll_of_need hl.ends halign (slices v.mem v.maxSize v.items)
        (by rw [halloc]; dsimp only; omega)
        (by rw [hlen, halloc]; dsimp only; omega)

/-- What is read holds the strings that were stored. -/
theorem strings_storeAndRead {m : Malloc} {v' : CVector}
    (hread : storeAndRead m v = some v') : v'.strings = strs := by
  cases hlast : v.items.getLast? with
  | none =>
    unfold storeAndRead flatSize at hread
    rw [hlast] at hread
    cases hread
  | some start =>
    rw [storeAndRead_eq h m hlast, Option.bind_eq_some_iff] at hread
    obtain ⟨w, hw, hadd⟩ := hread
    exact (h.regions.layout_addAll (create_eq hw).1 hadd).regions.strings

end RoundTrip

/-- The vector that is read holds the strings. -/
def ReadsBack (m : Malloc) (v : CVector) (strs : List (List UInt8)) : Prop :=
  ∃ v', storeAndRead m v = some v' ∧ v'.strings = strs

/-- **Vectors in a cache.** A vector of strings comes back exactly if it has an item, what has to
be left free to align the items that are read is not more than 880 bytes, and the new vector is
not larger than its allocator can count. -/
theorem vector_round_trip {v : CVector} {strs : List (List UInt8)} (hv : Built v strs)
    (m : Malloc) :
    ReadsBack m v strs ↔ ∃ size, flatSize v = some size ∧ v.padding ≤ 880 ∧
      8 * ((size + 1024) / 8) < 2 ^ 31 + 168 := by
  rw [← storeAndRead_isSome_iff hv.layout m]
  constructor
  · rintro ⟨v', hread, -⟩
    exact ⟨v', hread⟩
  · rintro ⟨v', hread⟩
    exact ⟨v', hread, strings_storeAndRead hv.layout hread⟩

def zeroMalloc : Malloc where
  block := fun n => replicate n 0
  length_block := fun _ => length_replicate

theorem built_addAll {v v' : CVector} {before strs : List (List UInt8)} (hv : Built v before)
    (hzero : ∀ s ∈ strs, 0 ∉ s) (hadd : v.addAll (strs.map fun s => s ++ [0]) = some v') :
    Built v' (before ++ strs) := by
  induction strs generalizing v before with
  | nil =>
    cases hadd
    rw [append_nil]
    exact hv
  | cons s strs ih =>
    rw [map_cons, addAll, Option.bind_eq_some_iff] at hadd
    obtain ⟨w, hw, hadd⟩ := hadd
    have hnext := ih (hv.add (hzero s mem_cons_self) hw) ((forall_mem_cons.mp hzero).2) hadd
    rw [append_assoc] at hnext
    exact hnext

/-- The vector of strings of a `ci_str_vector_t` with a block of zeros. -/
def strVector (maxSize : Nat) (strs : List (List UInt8)) : Option CVector :=
  (strCreate zeroMalloc maxSize).bind fun v => v.addAll (strs.map fun s => s ++ [0])

theorem built_strVector {maxSize : Nat} {strs : List (List UInt8)} {v : CVector}
    (hzero : ∀ s ∈ strs, 0 ∉ s) (h : strVector maxSize strs = some v) : Built v strs := by
  unfold strVector strCreate at h
  rw [Option.bind_eq_some_iff] at h
  obtain ⟨w, hw, hadd⟩ := h
  obtain ⟨u, hu, rfl⟩ := Option.map_eq_some_iff.mp hw
  exact built_addAll (.setAlign false (.create hu)) hzero hadd

theorem vector_round_trip_two : ∃ v, Built v [CText.bytes "ab", CText.bytes "c"] ∧
    ReadsBack zeroMalloc v [CText.bytes "ab", CText.bytes "c"] := by
  obtain ⟨v, hv⟩ := Option.isSome_iff_exists.mp
    (by decide +kernel : (strVector 256 [CText.bytes "ab", CText.bytes "c"]).isSome = true)
  have hsize : (strVector 256 [CText.bytes "ab", CText.bytes "c"]).map flatSize = some (some 37) := by
    decide +kernel
  have hpad : (strVector 256 [CText.bytes "ab", CText.bytes "c"]).map padding = some 11 := by
    decide +kernel
  rw [hv, Option.map_some, Option.some.injEq] at hsize hpad
  have hbuilt := built_strVector (by decide) hv
  exact ⟨v, hbuilt, (vector_round_trip hbuilt zeroMalloc).mpr ⟨37, hsize, by omega, by omega⟩⟩

/-- A vector without items cannot be stored, and one of 126 empty strings cannot be read. -/
theorem vector_round_trip_fails : (∃ v, Built v [] ∧ flatSize v = none) ∧
    ∃ v, Built v (replicate 126 []) ∧ storeAndRead zeroMalloc v = none := by
  constructor
  · obtain ⟨v, hv⟩ := create_isSome zeroMalloc 256 (by decide) (by decide)
    refine ⟨v, .create hv, ?_⟩
    rw [flatSize, (create_eq hv).2.2.1]
    rfl
  · have hpad : (strVector 2048 (replicate 126 [])).map padding = some 882 := by
      decide +kernel
    obtain ⟨v, hv, hv882⟩ := Option.map_eq_some_iff.mp hpad
    have hbuilt := built_strVector (fun s hs => by
      rw [eq_of_mem_replicate hs]
      exact not_mem_nil) hv
    refine ⟨v, hbuilt, ?_⟩
    rw [Option.eq_none_iff_forall_ne_some]
    intro v' hread
    -- 882 bytes would have to be left free
    obtain ⟨size, -, hle, -⟩ := (storeAndRead_isSome_iff hbuilt.layout zeroMalloc).mp ⟨v', hread⟩
    omega

end CIcap
