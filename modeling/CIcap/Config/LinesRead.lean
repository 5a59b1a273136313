import CIcap.Config.Lines

/-! # Which lines are handed over

One read of `fread_line` is described by the line the file starts with: it takes the line (`Whole`),
throws the next line away with it, fails at the end of the file (`Lost`), or stops in the middle of
a line that has a zero byte in it. The lines that are handed over follow by induction over the file.
-/

namespace CIcap

open CText ConfFile List

/-- A string is at least `m` bytes long when no zero is among the first `m`. -/
theorem le_cstr_length (x : List UInt8) (m : Nat) :
    m ≤ (cstr x).length ↔ m ≤ x.length ∧ 0 ∉ x.take m := by
  induction x generalizing m with
  | nil => simp [cstr]
  | cons b x ih =>
    cases m with
    | zero => simp
    | succ m =>
      by_cases hb : b = 0
      · simp [cstr, hb]
      · have hrest := ih m
        have hne : ¬ (0 : UInt8) = b := fun h => hb h.symm
        simpa [cstr, hb, hne] using hrest

/-! ## Progress -/

namespace ConfFile

theorem fgets_length (n : Nat) (rest : List UInt8) :
    (fgets n rest).1.length + (fgets n rest).2.rest.length = rest.length := by
  induction rest generalizing n with
  | nil => cases n <;> simp [fgets]
  | cons b rest ih =>
    cases n with
    | zero => simp [fgets]
    | succ n =>
      rw [fgets]
      split
      · simp
        omega
      · have hrest := ih n
        simp only [length_cons]
        omega

theorem fgets_nil {n : Nat} (hn : 0 < n) {rest : List UInt8} (h : (fgets n rest).1 = []) :
    (fgets n rest).2.eof = true := by
  obtain ⟨n, rfl⟩ : ∃ k, n = k + 1 := ⟨n - 1, by omega⟩
  cases rest with
  | nil => rfl
  | cons b rest =>
    rw [fgets] at h
    split at h
    all_goals cases h

theorem skipLine_spec (rest : List UInt8) : (skipLine rest).2.rest.length ≤ rest.length ∧
      ((skipLine rest).1 = false → (skipLine rest).2.eof = true) := by
  induction rest with
  | nil => simp [skipLine]
  | cons b rest ih =>
    rw [skipLine]
    split
    · simp
    · exact ⟨by simp; omega, ih.2⟩

/-- A read takes a byte off the file or meets its end, and one that fails meets its end. -/
theorem freadLine_progress (rest : List UInt8) : ((freadLine ⟨rest, false⟩).2.2.eof = true ∨
      (freadLine ⟨rest, false⟩).2.2.rest.length < rest.length) ∧
    ((freadLine ⟨rest, false⟩).1 = 0 → (freadLine ⟨rest, false⟩).2.2.eof = true) := by
  have hlen := fgets_length (lineSize - 1) rest
  have hskip := skipLine_spec (fgets (lineSize - 1) rest).2.rest
  unfold freadLine
  by_cases hnil : (fgets (lineSize - 1) rest).1 = []
  · have heof := fgets_nil (by decide) hnil
    simp [hnil, heof]
  have hpos : 0 < (fgets (lineSize - 1) rest).1.length := length_pos_of_ne_nil hnil
  rw [if_neg hnil]
  split
  · split
    · next heof => simp [heof]
    · refine ⟨.inr (by dsimp only; omega), ?_⟩
      cases hfound : (skipLine (fgets (lineSize - 1) rest).2.rest).1 with
      | true => simp
      | false => simpa [hfound] using hskip.2 hfound
  · exact ⟨.inr (by dsimp only; omega), by simp⟩

end ConfFile

/-! ## One read at a time -/

/-- The lines that are handed over from a place of the file on. -/
def handedFrom (rest : List UInt8) : List (Nat × List UInt8) :=
  handedLines (reads (rest.length + 1) ⟨rest, false⟩)

theorem reads_eof (n : Nat) {f : ConfFile} (h : f.eof = true) : reads n f = [] := by
  cases n with
  | zero => rfl
  | succ n => simp [reads, h]

theorem reads_succ (n : Nat) (rest : List UInt8) :
    reads (n + 1) ⟨rest, false⟩ =
      (rest.length, (freadLine ⟨rest, false⟩).1, (freadLine ⟨rest, false⟩).2.1) ::
        reads n (freadLine ⟨rest, false⟩).2.2 := rfl

theorem handedLines_cons (pos : Nat) (ret : Int) (line : List UInt8)
    (rs : List (Nat × Int × List UInt8)) :
    handedLines ((pos, ret, line) :: rs) =
      (if ret ≠ 0 then [(pos, line)] else []) ++ handedLines rs := by
  by_cases h : ret = 0
  all_goals simp [handedLines, h]

/-- More rounds than there are bytes do not change what is handed over. -/
theorem handed_reads (k : Nat) {rest : List UInt8} (hk : rest.length ≤ k) {n : Nat}
    (hn : rest.length < n) : handedLines (reads n ⟨rest, false⟩) = handedFrom rest := by
  induction k generalizing rest n with
  | zero =>
    obtain rfl : rest = [] := length_eq_zero_iff.mp (by omega)
    obtain ⟨n, rfl⟩ : ∃ m, n = m + 1 := ⟨n - 1, by omega⟩
    have heof : (freadLine ⟨[], false⟩).2.2.eof = true := rfl
    simp [handedFrom, reads, reads_eof _ heof]
  | succ k ih =>
    obtain ⟨n, rfl⟩ : ∃ m, n = m + 1 := ⟨n - 1, by omega⟩
    unfold handedFrom
    rw [reads_succ, reads_succ, handedLines_cons, handedLines_cons]
    rcases hf : (freadLine ⟨rest, false⟩).2.2 with ⟨rest', eof⟩
    cases eof with
    | true => rw [reads_eof _ rfl, reads_eof _ rfl]
    | false =>
      have hless := (freadLine_progress rest).1
      simp only [hf, Bool.false_eq_true, false_or] at hless
      rw [ih (by omega) (by omega), ih (by omega) hless]

theorem handedFrom_step (rest : List UInt8) : handedFrom rest =
      (if (freadLine ⟨rest, false⟩).1 ≠ 0 then
        [(rest.length, (freadLine ⟨rest, false⟩).2.1)] else []) ++
      (if (freadLine ⟨rest, false⟩).2.2.eof then [] else
        handedFrom (freadLine ⟨rest, false⟩).2.2.rest) := by
  conv_lhs => unfold handedFrom
  rw [reads_succ, handedLines_cons]
  congr 1
  rcases hf : (freadLine ⟨rest, false⟩).2.2 with ⟨rest', eof⟩
  cases eof with
  | true => simp [reads_eof _, handedLines]
  | false =>
    have hless := (freadLine_progress rest).1
    simp only [hf, Bool.false_eq_true, false_or] at hless
    exact handed_reads rest'.length (le_refl _) hless

/-- Nothing is handed over, or first the line at this place. -/
theorem handedFrom_start (rest : List UInt8) :
    handedFrom rest = [] ∨ ∃ text tail, handedFrom rest = (rest.length, text) :: tail := by
  rw [handedFrom_step]
  by_cases hret : (freadLine ⟨rest, false⟩).1 = 0
  · have heof := (freadLine_progress rest).2 hret
    exact .inl (by simp [hret, heof])
  · exact .inr ⟨_, _, by rw [if_pos hret]; rfl⟩

theorem handedFrom_le (k : Nat) {rest : List UInt8} (hk : rest.length ≤ k) :
    ∀ item ∈ handedFrom rest, item.1 ≤ rest.length := by
  induction k generalizing rest with
  | zero =>
    obtain rfl : rest = [] := length_eq_zero_iff.mp (by omega)
    intro item hitem
    rw [handedFrom_step] at hitem
    have heof : (freadLine ⟨[], false⟩).2.2.eof = true := rfl
    split at hitem
    · simp at hitem
      simp [hitem]
    · cases hitem
  | succ k ih =>
    intro item hitem
    rw [handedFrom_step] at hitem
    rcases mem_append.mp hitem with hitem | hitem
    · split at hitem
      · simp at hitem
        simp [hitem]
      · cases hitem
    cases heof : (freadLine ⟨rest, false⟩).2.2.eof with
    | true => simp [heof] at hitem
    | false =>
      have hless := (freadLine_progress rest).1
      simp only [heof, Bool.false_eq_true, false_or] at hless
      simp only [heof] at hitem
      have := ih (by omega) item hitem
      omega

/-! ## The four kinds of reads -/

/-- A line with a newline that fits the buffer. With three bytes less than the buffer has, and
without a zero byte, the line is taken to be a part of a longer one. -/
theorem freadLine_newline {c : List UInt8} (hc : 10 ∉ c) (hlen : c.length ≤ lineSize - 2)
    (rest : List UInt8) :
    freadLine ⟨c ++ 10 :: rest, false⟩ =
      if c.length = lineSize - 3 ∧ 0 ∉ c then
        (if (skipLine rest).1 then 1 else 0, cstr (c ++ [10]), (skipLine rest).2)
      else (1, cstr (c ++ [10]), ⟨rest, false⟩) := by
  have hsize : lineSize = 8192 := rfl
  have hlong : ((cstr (c ++ [10])).length ≥ lineSize - 2 ∧
      (c ++ [10] ++ [0]).getD (lineSize - 2) 0 ≠ 10) ↔ c.length = lineSize - 3 ∧ 0 ∉ c := by
    rw [ge_iff_le, le_cstr_length]
    constructor
    · rintro ⟨⟨hle, hzero⟩, hbyte⟩
      have hlt : c.length = lineSize - 3 := by
        by_contra hne
        -- the newline is the last byte that the buffer has room for
        have heq : c.length = lineSize - 2 := by
          simp at hle
          omega
        exact hbyte (by rw [← heq]; simp)
      refine ⟨hlt, fun h => hzero ?_⟩
      rw [take_of_length_le (by simp; omega)]
      simp [h]
    · rintro ⟨heq, hzero⟩
      refine ⟨⟨by simp; omega, ?_⟩, ?_⟩
      · rw [take_of_length_le (by simp; omega)]
        simp [hzero]
      · rw [show lineSize - 2 = (c ++ [10]).length by simp; omega]
        simp
  have hfgets := fgets_newline hc (show c.length < lineSize - 1 by omega) rest
  unfold freadLine
  simp only [hfgets]
  rw [if_neg (by simp)]
  by_cases h : c.length = lineSize - 3 ∧ 0 ∉ c
  · rw [if_pos (hlong.mpr h), if_pos h]
    rfl
  · rw [if_neg (fun hl => h (hlong.mp hl)), if_neg h]

/-- A line that is longer than the buffer: with a zero byte in it, the next read goes on inside of
the line. -/
theorem freadLine_long {c : List UInt8} (hc : 10 ∉ c) (hlen : lineSize - 1 ≤ c.length)
    (rest : List UInt8) :
    freadLine ⟨c ++ rest, false⟩ =
      if 0 ∈ c.take (lineSize - 2) then
        (1, cstr (c.take (lineSize - 1)), ⟨c.drop (lineSize - 1) ++ rest, false⟩)
      else
        (if (skipLine (c.drop (lineSize - 1) ++ rest)).1 then 1 else 0,
          cstr (c.take (lineSize - 1)), (skipLine (c.drop (lineSize - 1) ++ rest)).2) := by
  have hsize : lineSize = 8192 := rfl
  have htake : (c.take (lineSize - 1)).length = lineSize - 1 := length_take_of_le hlen
  have hbyte : (c.take (lineSize - 1) ++ [0]).getD (lineSize - 2) 0 ≠ 10 := by
    intro h
    have hlt : lineSize - 2 < c.length := by omega
    have hmem : (c)[lineSize - 2] ∈ c := getElem_mem hlt
    rw [getD_eq_getElem?_getD, getElem?_append_left (by omega), getElem?_take_of_lt (by omega), getElem?_eq_getElem hlt] at h
    exact hc (h ▸ hmem)
  have hlong : ((cstr (c.take (lineSize - 1))).length ≥ lineSize - 2 ∧
      (c.take (lineSize - 1) ++ [0]).getD (lineSize - 2) 0 ≠ 10) ↔ 0 ∉ c.take (lineSize - 2) := by
    rw [ge_iff_le, le_cstr_length, take_take]
    exact ⟨fun h => h.1.2, fun h => ⟨⟨by omega, h⟩, hbyte⟩⟩
  have hfgets := fgets_full hc (show lineSize - 1 ≤ c.length from hlen) rest
  have hne : c.take (lineSize - 1) ≠ [] := by
    intro h
    rw [h] at htake
    simp at htake
    omega
  unfold freadLine
  simp only [hfgets]
  rw [if_neg hne]
  by_cases h : 0 ∈ c.take (lineSize - 2)
  · rw [if_neg (fun hl => hlong.mp hl h), if_pos h]
  · rw [if_pos (hlong.mpr h), if_neg h]
    rfl

/-- A last line without a newline that fits the buffer. -/
theorem freadLine_last {c : List UInt8} (hc : 10 ∉ c) (hne : c ≠ [])
    (hlen : c.length ≤ lineSize - 2) :
    freadLine ⟨c, false⟩ =
      (if c.length = lineSize - 2 ∧ 0 ∉ c then 0 else 1, cstr c, ⟨[], true⟩) := by
  have hsize : lineSize = 8192 := rfl
  have hlong : ((cstr c).length ≥ lineSize - 2 ∧ (c ++ [0]).getD (lineSize - 2) 0 ≠ 10) ↔
      c.length = lineSize - 2 ∧ 0 ∉ c := by
    rw [ge_iff_le, le_cstr_length]
    constructor
    · rintro ⟨⟨hle, hzero⟩, -⟩
      have heq : c.length = lineSize - 2 := by omega
      rw [take_of_length_le (by omega)] at hzero
      exact ⟨heq, hzero⟩
    · rintro ⟨heq, hzero⟩
      refine ⟨⟨by omega, ?_⟩, ?_⟩
      · rw [take_of_length_le (by omega)]
        exact hzero
      · rw [← heq]
        simp
  have hfgets := fgets_last hc (show c.length < lineSize - 1 by omega)
  unfold freadLine
  simp only [hfgets]
  rw [if_neg hne]
  by_cases h : c.length = lineSize - 2 ∧ 0 ∉ c
  · rw [if_pos (hlong.mpr h), if_pos h]
    rfl
  · rw [if_neg (fun hl => h (hlong.mp hl)), if_neg h]

end CIcap
