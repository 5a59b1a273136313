import CIcap.Filetype.DataType

/-! # When the detected type is the right one

The type should be that of the first record whose blocks are all in the data, and be determined by
the data alone. `check_magics` bounds block `j` of a record by the offset of block `j` of record `j`
instead of its own. So a record is passed over, or bytes past the data are compared, unless that
offset happens to give the right bound. The loop over UTF-16 reads past a text of an odd length.
-/

namespace CIcap

open CText List

/-! ## What should be detected -/

/-- The block is in the data. -/
def MagicBlock.heldBy (b : MagicBlock) (buf : List UInt8) : Bool :=
  decide (b.Inside buf) && b.equalTo buf

/-- All blocks of the record are in the data. -/
def Magic.matchesIn (m : Magic) (buf : List UInt8) : Bool := m.blocks.all (fun b => b.heldBy buf)

namespace MagicsDb

/-- The type is determined by the data, and is the type of the first record that matches. -/
def Detected (db : MagicsDb) (buf : List UInt8) : Prop :=
  ∃ t, db.dataType buf = some t ∧
    ∀ m, db.magics.find? (fun m => m.matchesIn buf) = some m → t = m.type

/-! ## Conditions on the records -/

/-- From block `j` on: there is a bound, and a block that it lets through is inside of the data. The
blocks behind one that is in the data have to be safe too. -/
def SafeFrom (db : MagicsDb) (buf : List UInt8) : Nat → List MagicBlock → Prop
  | _, [] => True
  | j, b :: blocks =>
    ∃ bound, db.boundBlock j = some bound ∧ (Passes bound b buf →
      b.Inside buf ∧ (b.equalTo buf = true → SafeFrom db buf (j + 1) blocks))

/-- Every bound from block `j` on lets its block through. -/
def PassFrom (db : MagicsDb) (buf : List UInt8) : Nat → List MagicBlock → Prop
  | _, [] => True
  | j, b :: blocks =>
    (∃ bound, db.boundBlock j = some bound ∧ Passes bound b buf) ∧ PassFrom db buf (j + 1) blocks

/-- A bound from block `j` on does not let its block through. -/
def RefusedFrom (db : MagicsDb) (buf : List UInt8) : Nat → List MagicBlock → Prop
  | _, [] => False
  | j, b :: blocks =>
    ∃ bound, db.boundBlock j = some bound ∧
      (Passes bound b buf → RefusedFrom db buf (j + 1) blocks)

/-- A text in UTF-16 of an odd length whose pairs are all readable: the byte behind its last one is
read, unless that is not needed to tell that the last pair is readable. -/
def Utf16Cut (buf : List UInt8) : Prop :=
  ∃ (endian : Bool) (pairs : List (UInt8 × UInt8)) (last : UInt8),
    buf = (if endian then [0xfe, 0xff] else [0xff, 0xfe]) ++
      (pairs.flatMap (fun p => [p.1, p.2]) ++ [last]) ∧
    (∀ p ∈ pairs, utf16Pair endian p.1 p.2 = true) ∧ (endian = true → last = 0)

/-- No record matches: the records are safe, and data that are no text by their bytes are not cut
UTF-16. Or a record matches: the records before it are safe, and its own bounds let it through, or
else what is detected behind it is of its type all the same. -/
def Detectable (db : MagicsDb) (buf : List UInt8) : Prop :=
  ((∀ m ∈ db.magics, m.matchesIn buf = false) ∧
    (buf = [] ∨ (∀ m ∈ db.magics, db.SafeFrom buf 0 m.blocks) ∧
      (checkAscii buf = -1 → ¬ Utf16Cut buf))) ∨
  ∃ before m behind, db.magics = before ++ m :: behind ∧ m.matchesIn buf = true ∧ buf ≠ [] ∧
    (∀ r ∈ before, r.matchesIn buf = false ∧ db.SafeFrom buf 0 r.blocks) ∧
    (db.PassFrom buf 0 m.blocks ∨
      db.RefusedFrom buf 0 m.blocks ∧ db.dataTypeFrom buf behind = some (m.type : Int))

/-! ## One record -/

theorem checkBlocks_cons (db : MagicsDb) (buf : List UInt8) (j : Nat) (b : MagicBlock)
    (blocks : List MagicBlock) {bound : MagicBlock} (hbound : db.boundBlock j = some bound)
    (hpass : Passes bound b buf) (hin : b.Inside buf) :
    db.checkBlocks buf j (b :: blocks) =
      if b.equalTo buf = true then db.checkBlocks buf (j + 1) blocks else some false := by
  cases heq : b.equalTo buf <;>
    simp [checkBlocks, hbound, hpass, MagicBlock.memcmp, hin, heq]

variable {db : MagicsDb} {buf : List UInt8} {blocks : List MagicBlock}

/-- Without a read outside of the data only matching records match. -/
theorem checkBlocks_true {j : Nat} (h : db.checkBlocks buf j blocks = some true) :
    blocks.all (fun b => b.heldBy buf) = true := by
  induction blocks generalizing j with
  | nil => rfl
  | cons b blocks ih =>
    unfold checkBlocks MagicBlock.memcmp at h
    cases hbound : db.boundBlock j with
    | none => simp [hbound] at h
    | some bound =>
      by_cases hpass : Passes bound b buf
      · by_cases hin : b.Inside buf
        · cases heq : b.equalTo buf with
          | true =>
            simp only [hbound, if_pos hpass, if_pos hin, heq] at h
            simp only [all_cons, MagicBlock.heldBy, hin, heq]
            exact ih h
          | false => simp [hbound, hin, heq] at h
        · simp [hbound, hin] at h
      · simp [hbound, hpass] at h

/-- A record that does not match is passed over when it is safe. -/
theorem checkBlocks_false_iff (db : MagicsDb)
    (hno : blocks.all (fun b => b.heldBy buf) = false) (j : Nat) :
    db.checkBlocks buf j blocks = some false ↔ db.SafeFrom buf j blocks := by
  induction blocks generalizing j with
  | nil => cases hno
  | cons b blocks ih =>
    cases hbound : db.boundBlock j with
    | none => simp [checkBlocks, SafeFrom, hbound]
    | some bound =>
      by_cases hpass : Passes bound b buf
      · by_cases hin : b.Inside buf
        · rw [checkBlocks_cons db buf j b blocks hbound hpass hin]
          cases heq : b.equalTo buf with
          | true =>
            have hrest : blocks.all (fun b => b.heldBy buf) = false := by
              simpa [MagicBlock.heldBy, hin, heq] using hno
            simp [SafeFrom, hbound, hpass, hin, heq, ih hrest]
          | false => simp [SafeFrom, hbound, hin, heq]
        · simp [checkBlocks, SafeFrom, hbound, hin, MagicBlock.memcmp]
      · simp [checkBlocks, SafeFrom, hbound, hpass]

/-- A record that matches is found when all its bounds let it through, and passed over when one of
them does not. -/
theorem checkBlocks_of_all (db : MagicsDb)
    (hall : blocks.all (fun b => b.heldBy buf) = true) (j : Nat) :
    (db.checkBlocks buf j blocks = some true ↔ db.PassFrom buf j blocks) ∧
      (db.checkBlocks buf j blocks = some false ↔ db.RefusedFrom buf j blocks) := by
  induction blocks generalizing j with
  | nil => simp [checkBlocks, PassFrom, RefusedFrom]
  | cons b blocks ih =>
    simp only [all_cons, Bool.and_eq_true, MagicBlock.heldBy, decide_eq_true_eq] at hall
    obtain ⟨⟨hin, heq⟩, hrest⟩ := hall
    have hblocks := ih hrest (j + 1)
    cases hbound : db.boundBlock j with
    | none => simp [checkBlocks, PassFrom, RefusedFrom, hbound]
    | some bound =>
      by_cases hpass : Passes bound b buf
      · rw [checkBlocks_cons db buf j b blocks hbound hpass hin, if_pos heq]
        simpa [PassFrom, RefusedFrom, hbound, hpass] using hblocks
      · simp [checkBlocks, PassFrom, RefusedFrom, hbound, hpass]

/-! ## All records -/

theorem dataTypeFrom_cons (db : MagicsDb) (buf : List UInt8) (m : Magic) (magics : List Magic) :
    db.dataTypeFrom buf (m :: magics) =
      match db.checkBlocks buf 0 m.blocks with
      | none => none
      | some true => some (m.type : Int)
      | some false => db.dataTypeFrom buf magics := by
  unfold dataTypeFrom
  rw [checkMagics]
  cases hblocks : db.checkBlocks buf 0 m.blocks with
  | none => rfl
  | some found =>
    cases found with
    | true => simp
    | false => rfl

/-- Records that do not match have to be safe, and are then passed over. -/
theorem dataTypeFrom_append {before : List Magic}
    (hno : ∀ r ∈ before, r.matchesIn buf = false) (magics : List Magic) (t : Int) :
    db.dataTypeFrom buf (before ++ magics) = some t ↔
      (∀ r ∈ before, db.SafeFrom buf 0 r.blocks) ∧ db.dataTypeFrom buf magics = some t := by
  induction before with
  | nil => simp
  | cons r before ih =>
    have hrno := hno r (by simp)
    have hsafe := checkBlocks_false_iff db hrno 0
    have hrest := ih fun r hr => hno r (by simp [hr])
    rw [cons_append, dataTypeFrom_cons]
    cases hblocks : db.checkBlocks buf 0 r.blocks with
    | none =>
      have hfault : ¬ db.SafeFrom buf 0 r.blocks := fun h => by
        simp [hsafe.mpr h] at hblocks
      simp [hfault]
    | some found =>
      cases found with
      | true =>
        have hmatch := checkBlocks_true hblocks
        exact absurd (hmatch.symm.trans hrno) (by decide)
      | false =>
        simp only [mem_cons, forall_eq_or_imp, hsafe.mp hblocks, true_and]
        exact hrest

/-- A record that matches: its type, or what is detected behind it. -/
theorem dataTypeFrom_match {m : Magic}
    (hmatch : m.matchesIn buf = true) (behind : List Magic) (t : Int) :
    db.dataTypeFrom buf (m :: behind) = some t ↔ db.PassFrom buf 0 m.blocks ∧ t = m.type ∨
        db.RefusedFrom buf 0 m.blocks ∧ db.dataTypeFrom buf behind = some t := by
  obtain ⟨hpass, hrefused⟩ := checkBlocks_of_all db hmatch 0
  rw [dataTypeFrom_cons]
  cases hblocks : db.checkBlocks buf 0 m.blocks with
  | none =>
    rw [hblocks] at hpass hrefused
    simp [← hpass, ← hrefused]
  | some found =>
    rw [hblocks] at hpass hrefused
    cases found with
    | true => simp [← hpass, ← hrefused, eq_comm]
    | false => simp [← hpass, ← hrefused]

/-! ## Texts -/

/-- The loop over the pairs reads past the data exactly at a last byte without a second one. -/
theorem utf16Loop_none_iff (endian : Bool) (rest : List UInt8) : utf16Loop endian rest = none ↔
      ∃ (pairs : List (UInt8 × UInt8)) (last : UInt8),
        rest = pairs.flatMap (fun p => [p.1, p.2]) ++ [last] ∧
        (∀ p ∈ pairs, utf16Pair endian p.1 p.2 = true) ∧ (endian = true → last = 0) := by
  fun_induction utf16Loop endian rest with
  | case1 => simp
  | case2 a h =>
    -- the last byte alone tells that the pair is readable
    simp only [Bool.and_eq_true, bne_iff_ne] at h
    refine iff_of_false (by simp) ?_
    rintro ⟨pairs, last, hrest, -, hlast⟩
    cases pairs with
    | nil => exact h.2 ((cons.inj hrest).1.trans (hlast h.1))
    | cons p pairs => simp at hrest
  | case3 a h =>
    refine iff_of_true rfl ⟨[], a, rfl, by simp, fun he => ?_⟩
    simpa [he] using h
  | case4 a b rest hpair ih =>
    rw [ih]
    constructor
    · rintro ⟨pairs, last, rfl, hall, hlast⟩
      exact ⟨(a, b) :: pairs, last, rfl, by simpa [hpair] using hall, hlast⟩
    · rintro ⟨pairs, last, hrest, hall, hlast⟩
      cases pairs with
      | nil => simp at hrest
      | cons p pairs =>
        simp only [flatMap_cons, cons_append, cons.injEq] at hrest
        exact ⟨pairs, last, hrest.2.2, fun q hq => hall q (by simp [hq]), hlast⟩
  | case5 a b rest hpair =>
    refine iff_of_false (by simp) ?_
    rintro ⟨pairs, last, hrest, hall, -⟩
    cases pairs with
    | nil => simp at hrest
    | cons p pairs =>
      simp only [flatMap_cons, cons_append, cons.injEq] at hrest
      have hp := hall p (by simp)
      rw [← hrest.1, ← hrest.2.1] at hp
      exact hpair hp

theorem utf8Loop_mark {a : UInt8} (ha : a = 0xff ∨ a = 0xfe) (rest : List UInt8) :
    utf8Loop (a :: rest).length 0 0 (a :: rest) = (0, 0) := by
  have hlead : textChars a ≠ 1 ∧ utf8Lead a = (0, 0) := by
    rcases ha with rfl | rfl
    all_goals decide
  have hzero : isUTF8 (a :: rest) = 0 := by
    simp [isUTF8, hlead]
  simp [utf8Loop, hzero]

theorem checkUnicode_mark (endian : Bool) (rest : List UInt8) :
    checkUnicode ((if endian then [0xfe, 0xff] else [0xff, 0xfe]) ++ rest) =
      (utf16Loop endian rest).map (fun ok => if ok then 3 else -1) := by
  cases endian with
  | false =>
    have hloop := utf8Loop_mark (.inl rfl) ((0xfe : UInt8) :: rest)
    simp only [length_cons] at hloop
    simp [checkUnicode, hloop]
  | true =>
    have hloop := utf8Loop_mark (.inr rfl) ((0xff : UInt8) :: rest)
    simp only [length_cons] at hloop
    simp [checkUnicode, hloop]

theorem checkUnicode_none_iff (buf : List UInt8) : checkUnicode buf = none ↔ Utf16Cut buf := by
  have hmark : ∀ (endian : Bool) (rest : List UInt8),
      checkUnicode ((if endian then [0xfe, 0xff] else [0xff, 0xfe]) ++ rest) = none ↔
        utf16Loop endian rest = none := by
    intro endian rest
    rw [checkUnicode_mark, Option.map_eq_none_iff]
  constructor
  · intro h
    -- only the loop over the pairs reads past the data, so there is a mark
    have hbuf : buf = (if true then [0xfe, 0xff] else [0xff, 0xfe]) ++ buf.drop 2 ∨
        buf = (if false then [0xfe, 0xff] else [0xff, 0xfe]) ++ buf.drop 2 := by
      have hsplit := (take_append_drop 2 buf).symm
      by_cases hle : buf.take 2 = [0xff, 0xfe]
      · rw [hle] at hsplit
        exact .inr hsplit
      by_cases hbe : buf.take 2 = [0xfe, 0xff]
      · rw [hbe] at hsplit
        exact .inl hsplit
      simp only [checkUnicode] at h
      split_ifs at h
    rcases hbuf with hbuf | hbuf
    · rw [hbuf, hmark true, utf16Loop_none_iff] at h
      obtain ⟨pairs, last, hrest, hall, hlast⟩ := h
      exact ⟨true, pairs, last, by rw [← hrest]; exact hbuf, hall, hlast⟩
    · rw [hbuf, hmark false, utf16Loop_none_iff] at h
      obtain ⟨pairs, last, hrest, hall, hlast⟩ := h
      exact ⟨false, pairs, last, by rw [← hrest]; exact hbuf, hall, hlast⟩
  · rintro ⟨endian, pairs, last, rfl, hall, hlast⟩
    rw [hmark endian, utf16Loop_none_iff]
    exact ⟨pairs, last, rfl, hall, hlast⟩

theorem checkAscii_neg (buf : List UInt8) : ¬ checkAscii buf ≥ 0 ↔ checkAscii buf = -1 := by
  unfold checkAscii
  cases asciiLoop 0 buf with
  | none => simp
  | some res =>
    dsimp only
    split <;> [simp; split <;> simp]

/-- Where no record is left, only a cut UTF-16 text is not determined. -/
theorem dataTypeFrom_nil (db : MagicsDb) (buf : List UInt8) :
    (∃ t, db.dataTypeFrom buf [] = some t) ↔ (checkAscii buf = -1 → ¬ Utf16Cut buf) := by
  rw [← checkUnicode_none_iff, ← checkAscii_neg]
  unfold dataTypeFrom checkMagics
  by_cases hascii : checkAscii buf ≥ 0
  · simp [hascii]
  · cases checkUnicode buf with
    | none | some ret => simp [hascii]

/-! ## The detected type -/

end MagicsDb

end CIcap
