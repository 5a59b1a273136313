import CIcap.Config.LinesRead

/-! # When every line of a configuration file is handed over

For a file without zero bytes the lines are handed over as they should be when no line has exactly
three bytes less than the buffer in front of its newline, and when a last line without a newline is
shorter than that by another byte. A line with a zero byte may also not be longer than the buffer.
-/

namespace CIcap

open CText ConfFile List

namespace ConfLine

/-- A read takes the line as a whole and leaves the file at the next one. -/
def Whole (l : ConfLine) : Prop :=
  if l.newline then
    ¬ (l.content.length = lineSize - 3 ∧ 0 ∉ l.content) ∧
      (l.content.length ≤ lineSize - 2 ∨ 0 ∉ l.content.take (lineSize - 2))
  else
    l.content.length ≤ lineSize - 1 ∧
      (l.content.length < lineSize - 2 ∨ 0 ∈ l.content.take (lineSize - 2))

/-- The line is not handed over when it is the last one. -/
def Lost (l : ConfLine) : Prop :=
  if l.newline then l.content.length = lineSize - 3 ∧ 0 ∉ l.content
  else lineSize - 2 ≤ l.content.length ∧ 0 ∉ l.content.take (lineSize - 2)

/-- A zero byte makes a read stop inside of the line. -/
def Split (l : ConfLine) : Prop :=
  lineSize - 1 ≤ l.content.length ∧ 0 ∈ l.content.take (lineSize - 2)

/-- What is left of a line behind the buffer. -/
def behind (l : ConfLine) : ConfLine := { l with content := l.content.drop (lineSize - 1) }

/-- A last line that is split is handed over once when what is behind the buffer is lost. -/
def WholeLast (l : ConfLine) : Prop := l.Whole ∨ l.Split ∧ l.behind.Lost

end ConfLine

/-- All lines are read as a whole; the last one may be split when its rest is lost. -/
def ReadableLines : List ConfLine → Prop
  | [] => True
  | [l] => l.WholeLast
  | l :: ls => l.Whole ∧ ReadableLines ls

/-! ## What one line makes of the lines that are handed over -/

section OneLine

variable {c : List UInt8}

theorem newline_cases (c : List UInt8) :
    ConfLine.Whole ⟨c, true⟩ ∨ ConfLine.Lost ⟨c, true⟩ ∨ ConfLine.Split ⟨c, true⟩ := by
  simp only [ConfLine.Split]
  by_cases hlost : c.length = lineSize - 3 ∧ 0 ∉ c
  · exact .inr (.inl hlost)
  · by_cases hzero : 0 ∈ c.take (lineSize - 2)
    · by_cases hlen : c.length ≤ lineSize - 2
      · exact .inl ⟨hlost, .inl hlen⟩
      · exact .inr (.inr ⟨by omega, hzero⟩)
    · exact .inl ⟨hlost, .inr hzero⟩

theorem last_cases (c : List UInt8) : ConfLine.Whole ⟨c, false⟩ ∨ ConfLine.Lost ⟨c, false⟩ ∨
      ConfLine.Split ⟨c, false⟩ ∧ lineSize - 1 < c.length := by
  simp only [ConfLine.Whole, ConfLine.Lost, ConfLine.Split]
  by_cases hzero : 0 ∈ c.take (lineSize - 2)
  · by_cases hlen : c.length ≤ lineSize - 1
    · exact .inl ⟨hlen, .inr hzero⟩
    · exact .inr (.inr ⟨⟨by omega, hzero⟩, by omega⟩)
  · by_cases hlen : c.length < lineSize - 2
    · exact .inl ⟨by omega, .inl hlen⟩
    · exact .inr (.inl ⟨by omega, hzero⟩)

theorem handedFrom_nil : handedFrom [] = [(0, [])] := by
  rfl

variable (hc : 10 ∉ c)
include hc

theorem handedFrom_whole (hwhole : ConfLine.Whole ⟨c, true⟩) (rest : List UInt8) :
    handedFrom (c ++ 10 :: rest) =
      ((c ++ 10 :: rest).length, cstr ((c ++ [10]).take (lineSize - 1))) :: handedFrom rest := by
  have hsize : lineSize = 8192 := rfl
  rw [handedFrom_step]
  by_cases hlen : c.length ≤ lineSize - 2
  · rw [freadLine_newline hc hlen, if_neg hwhole.1, take_of_length_le (by simp; omega)]
    simp
  · -- the rest of a longer line is thrown away
    have hzero := hwhole.2.resolve_left hlen
    have hdrop : 10 ∉ c.drop (lineSize - 1) := fun h => hc (mem_of_mem_drop h)
    rw [freadLine_long hc (by omega), if_neg hzero, skipLine_newline hdrop,
      take_append_of_le_length (by omega)]
    simp

/-- A line that is taken to be a part of a longer one: the next line is thrown away. -/
theorem handedFrom_skip (hlost : ConfLine.Lost ⟨c, true⟩) {c' : List UInt8}
    (hc' : 10 ∉ c') (rest : List UInt8) :
    handedFrom (c ++ 10 :: (c' ++ 10 :: rest)) =
      ((c ++ 10 :: (c' ++ 10 :: rest)).length, cstr (c ++ [10])) :: handedFrom rest := by
  simp only [ConfLine.Lost, if_true] at hlost
  rw [handedFrom_step, freadLine_newline hc (by omega), if_pos hlost, skipLine_newline hc']
  simp

/-- It is not handed over itself when no newline follows. -/
theorem handedFrom_lost (hlost : ConfLine.Lost ⟨c, true⟩) {rest : List UInt8}
    (hrest : 10 ∉ rest) : handedFrom (c ++ 10 :: rest) = [] := by
  simp only [ConfLine.Lost, if_true] at hlost
  rw [handedFrom_step, freadLine_newline hc (by omega), if_pos hlost, skipLine_last hrest]
  simp

/-- A line that is split: the next read goes on inside of it. -/
theorem handedFrom_split (hlen : lineSize - 1 ≤ c.length)
    (hzero : 0 ∈ c.take (lineSize - 2)) (rest : List UInt8) :
    handedFrom (c ++ rest) = ((c ++ rest).length, cstr (c.take (lineSize - 1))) ::
      handedFrom (c.drop (lineSize - 1) ++ rest) := by
  rw [handedFrom_step, freadLine_long hc hlen, if_pos hzero]
  simp

theorem handedFrom_last_whole (hne : c ≠ []) (hwhole : ConfLine.Whole ⟨c, false⟩) :
    handedFrom c = [(c.length, cstr (c.take (lineSize - 1)))] ∨
      handedFrom c = [(c.length, cstr (c.take (lineSize - 1))), (0, [])] := by
  simp only [ConfLine.Whole] at hwhole
  by_cases hlen : c.length ≤ lineSize - 2
  · have hread : ¬ (c.length = lineSize - 2 ∧ 0 ∉ c) := by
      rintro ⟨heq, hzero⟩
      have hin := hwhole.2.resolve_left (by omega)
      exact hzero (mem_of_mem_take hin)
    rw [handedFrom_step, freadLine_last hc hne hlen, if_neg hread, take_of_length_le (by omega)]
    simp
  · -- the file ends with the buffer, and the next read meets its end
    have hsplit := handedFrom_split hc (by omega) (hwhole.2.resolve_left (by omega)) []
    rw [append_nil, drop_of_length_le hwhole.1] at hsplit
    exact .inr hsplit

theorem handedFrom_last_lost (hlost : ConfLine.Lost ⟨c, false⟩) : handedFrom c = [] := by
  have hsize : lineSize = 8192 := rfl
  simp only [ConfLine.Lost, Bool.false_eq_true, if_false] at hlost
  have hne : c ≠ [] := by
    rintro rfl
    simp at hlost
    omega
  rw [handedFrom_step]
  by_cases hlen : c.length ≤ lineSize - 2
  · have hzero : c.length = lineSize - 2 ∧ 0 ∉ c := by
      have h := hlost.2
      rw [take_of_length_le hlen] at h
      exact ⟨by omega, h⟩
    rw [freadLine_last hc hne hlen, if_pos hzero]
    simp
  · have hread := freadLine_long hc (show lineSize - 1 ≤ c.length by omega) []
    have hdrop : 10 ∉ c.drop (lineSize - 1) ++ [] := by
      simpa using fun h => hc (mem_of_mem_drop h)
    rw [if_neg hlost.2, skipLine_last hdrop, append_nil] at hread
    rw [hread]
    simp

end OneLine

/-! ## The whole file -/

variable {file c : List UInt8}

/-- What is wanted of a file starts with the line at its start. -/
theorem wantedLines_start (hne : file ≠ []) :
    ∃ text tail, wantedLines (confLines file) = (file.length, text) :: tail := by
  have hfile := confLines_flatMap file
  cases hlines : confLines file with
  | nil =>
    rw [hlines] at hfile
    exact absurd hfile.symm hne
  | cons l ls =>
    rw [hlines] at hfile
    exact ⟨_, _, by rw [wantedLines, hfile]⟩

theorem readableLines_cons (l : ConfLine) (hwhole : l.Whole) (ls : List ConfLine) :
    ReadableLines (l :: ls) ↔ ReadableLines ls := by
  cases ls with
  | nil => simp [ReadableLines, ConfLine.WholeLast, hwhole]
  | cons l' ls => simp [ReadableLines, hwhole]

/-- Behind a line, neither lines from before a place of the file nor none at all are wanted. -/
theorem not_handed_of_ne {items : List (Nat × List UInt8)}
    (hne : file ≠ []) (hitems : ∀ item ∈ items.head?, item.1 ≠ file.length) :
    ¬ LinesHanded file items := by
  obtain ⟨text, tail, hwanted⟩ := wantedLines_start hne
  have hfirst : items.head? = some (file.length, text) → False := fun h =>
    hitems (file.length, text) (by simp [h]) rfl
  rintro (h | h)
  all_goals exact hfirst (by simp [h, hwanted])

/-- A last line that is split is handed over once exactly when its rest is lost. -/
theorem handed_behind_iff {rest : List UInt8} (hne : rest ≠ []) :
    LinesHanded [] (handedFrom rest) ↔ handedFrom rest = [] := by
  have hpos : 0 < rest.length := length_pos_of_ne_nil hne
  constructor
  · rintro (h | h)
    · exact h
    · rcases handedFrom_start rest with hnil | ⟨text, tail, hcons⟩
      · exact hnil
      · rw [hcons] at h
        have hzero : rest.length = 0 := congrArg Prod.fst (cons.inj h).1
        omega
  · intro h
    exact .inl h

section

variable (hc : 10 ∉ c)
include hc

theorem linesHanded_cons (rest : List UInt8) (text : List UInt8)
    (items : List (Nat × List UInt8)) (htext : text = cstr ((c ++ [10]).take (lineSize - 1))) :
    LinesHanded (c ++ 10 :: rest) (((c ++ 10 :: rest).length, text) :: items) ↔
      LinesHanded rest items := by
  have hlines := confLines_newline hc rest
  have hfile := confLines_flatMap (c ++ 10 :: rest)
  rw [hlines] at hfile
  subst htext
  simp only [LinesHanded, hlines, wantedLines, hfile, ConfLine.raw, if_true, cons_append,
    cons.injEq, true_and]

theorem lost_newline_iff : handedFrom (c ++ [10]) = [] ↔ ConfLine.Lost ⟨c, true⟩ := by
  constructor
  · intro h
    rcases newline_cases c with hwhole | hlost | ⟨hlen, hzero⟩
    · rw [handedFrom_whole hc hwhole] at h
      cases h
    · exact hlost
    · rw [handedFrom_split hc hlen hzero] at h
      cases h
  · intro hlost
    exact handedFrom_lost hc hlost (by simp)

theorem lost_last_iff (hne : c ≠ []) : handedFrom c = [] ↔ ConfLine.Lost ⟨c, false⟩ := by
  constructor
  · intro h
    rcases last_cases c with hwhole | hlost | ⟨⟨hlen, hzero⟩, -⟩
    · rcases handedFrom_last_whole hc hne hwhole with h' | h' <;> simp [h'] at h
    · exact hlost
    · have hsplit := handedFrom_split hc hlen hzero []
      rw [append_nil] at hsplit
      rw [hsplit] at h
      cases h
  · exact handedFrom_last_lost hc

theorem linesHanded_last (hne : c ≠ []) :
    LinesHanded c (handedFrom c) ↔ ConfLine.WholeLast ⟨c, false⟩ := by
  have hwanted : wantedLines (confLines c) = [(c.length, cstr (c.take (lineSize - 1)))] := by
    rw [confLines_last hc hne]
    simp [wantedLines, ConfLine.raw]
  rcases last_cases c with hwhole | hlost | ⟨hsplit, hlen⟩
  · refine iff_of_true ?_ (.inl hwhole)
    rcases handedFrom_last_whole hc hne hwhole with h | h
    · exact .inl (h.trans hwanted.symm)
    · exact .inr (by rw [h, hwanted]; rfl)
  · refine iff_of_false ?_ ?_
    · rw [handedFrom_last_lost hc hlost]
      exact not_handed_of_ne hne (by simp)
    · simp only [ConfLine.Lost, Bool.false_eq_true, if_false] at hlost
      rintro (hwhole | ⟨hsplit, -⟩)
      · simp only [ConfLine.Whole] at hwhole
        exact hlost.2 (hwhole.2.resolve_left (by omega))
      · exact hlost.2 hsplit.2
  have hdrop : 10 ∉ c.drop (lineSize - 1) := fun h => hc (mem_of_mem_drop h)
  have hbehind : c.drop (lineSize - 1) ≠ [] := by
    simp only [ne_eq, drop_eq_nil_iff]
    omega
  have hnotWhole : ¬ ConfLine.Whole ⟨c, false⟩ := by
    simp only [ConfLine.Whole, Bool.false_eq_true, if_false]
    omega
  have hstep := handedFrom_split hc hsplit.1 hsplit.2 []
  rw [append_nil] at hstep
  calc LinesHanded c (handedFrom c) ↔ LinesHanded [] (handedFrom (c.drop (lineSize - 1))) := by
        simp [LinesHanded, hwanted, hstep, wantedLines, confLines]
    _ ↔ ConfLine.Lost ⟨c.drop (lineSize - 1), false⟩ :=
        (handed_behind_iff hbehind).trans (lost_last_iff hdrop hbehind)
    _ ↔ ConfLine.WholeLast ⟨c, false⟩ := by
        simp [ConfLine.WholeLast, hnotWhole, hsplit, ConfLine.behind]

/-- A line with a newline that is not read as a whole. -/
theorem linesHanded_broken (hbroken : ¬ ConfLine.Whole ⟨c, true⟩) (rest : List UInt8) :
    LinesHanded (c ++ 10 :: rest) (handedFrom (c ++ 10 :: rest)) ↔
      rest = [] ∧ ConfLine.WholeLast ⟨c, true⟩ := by
  have hsize : lineSize = 8192 := rfl
  rcases (newline_cases c).resolve_left hbroken with hlost | hsplit
  · -- the line throws the next one away, or is lost itself
    refine iff_of_false ?_ ?_
    · by_cases hrest : 10 ∈ rest
      · obtain ⟨c', r, rfl, hc'⟩ := eq_append_cons_of_mem hrest
        have hle := handedFrom_le r.length (le_refl _)
        have htext : cstr (c ++ [10]) = cstr ((c ++ [10]).take (lineSize - 1)) := by
          simp only [ConfLine.Lost, if_true] at hlost
          rw [take_of_length_le (by simp; omega)]
        rw [handedFrom_skip hc hlost hc', linesHanded_cons hc _ _ _ htext]
        apply not_handed_of_ne (by simp)
        intro item hitem
        have := hle item (mem_of_mem_head? hitem)
        simp
        omega
      · rw [handedFrom_lost hc hlost hrest]
        exact not_handed_of_ne (by simp) (by simp)
    · rintro ⟨-, hwhole | ⟨hsplit, -⟩⟩
      · exact hbroken hwhole
      · exact hlost.2 (mem_of_mem_take hsplit.2)
  · have hdrop : 10 ∉ c.drop (lineSize - 1) := fun h => hc (mem_of_mem_drop h)
    have htext : cstr (c.take (lineSize - 1)) = cstr ((c ++ [10]).take (lineSize - 1)) := by
      rw [take_append_of_le_length hsplit.1]
    rw [handedFrom_split hc hsplit.1 hsplit.2, linesHanded_cons hc _ _ _ htext]
    by_cases hrest : rest = []
    · subst hrest
      rw [handed_behind_iff (by simp), lost_newline_iff hdrop]
      simp [ConfLine.WholeLast, hbroken, hsplit, ConfLine.behind]
    -- the read inside of the line is handed over, or everything up to the end is lost
    refine iff_of_false (not_handed_of_ne hrest ?_) (fun h => hrest h.1)
    intro item hitem
    rcases handedFrom_start (c.drop (lineSize - 1) ++ 10 :: rest) with h | ⟨text, tail, h⟩
    · simp [h] at hitem
    · simp only [h, head?_cons, Option.mem_def, Option.some.injEq] at hitem
      rw [← hitem]
      simp
      omega

end

theorem linesHanded_iff_readable (k : Nat) (hk : file.length ≤ k) :
    LinesHanded file (handedFrom file) ↔ ReadableLines (confLines file) := by
  -- the induction is on the length of the file, one line at a time
  induction k generalizing file with
  | zero =>
    obtain rfl : file = [] := length_eq_zero_iff.mp (by omega)
    exact iff_of_true (.inr handedFrom_nil) trivial
  | succ k ih =>
    by_cases hnewline : 10 ∈ file
    · obtain ⟨c, rest, rfl, hc⟩ := eq_append_cons_of_mem hnewline
      rw [confLines_newline hc]
      by_cases hwhole : ConfLine.Whole ⟨c, true⟩
      · rw [handedFrom_whole hc hwhole, linesHanded_cons hc _ _ _ rfl, readableLines_cons _ hwhole]
        simp only [length_append, length_cons] at hk
        exact ih (by omega)
      rw [linesHanded_broken hc hwhole]
      by_cases hrest : rest = []
      · subst hrest
        simp [confLines, ReadableLines]
      obtain ⟨l, ls, hlines⟩ : ∃ l ls, confLines rest = l :: ls := by
        cases h : confLines rest with
        | nil =>
          have := confLines_flatMap rest
          rw [h] at this
          exact absurd this.symm hrest
        | cons l ls => exact ⟨l, ls, rfl⟩
      simp [hrest, hlines, ReadableLines, hwhole]
    · by_cases hne : file = []
      · subst hne
        exact iff_of_true (.inr handedFrom_nil) trivial
      · rw [confLines_last hnewline hne]
        exact linesHanded_last hnewline hne

/-- The lines of a file are handed to `process_line` in order, each at most cut to the buffer, with
at most one empty line at the end, exactly when all of them are read as a whole. -/
theorem lines_handed_iff (parseLevel : Fin maxIncludeLevel) (file : List UInt8)
    (processLine : List UInt8 → Bool) :
    LinesHanded file (parseFile parseLevel (some file) processLine).2 ↔
      ReadableLines (confLines file) := by
  have hlevel : ¬ parseLevel.val ≥ maxIncludeLevel := by
    omega
  have hhanded : (parseFile parseLevel (some file) processLine).2 = handedFrom file := by
    rw [parseFile, if_neg hlevel]
    rfl
  rw [hhanded]
  exact linesHanded_iff_readable file.length (le_refl _)

set_option maxRecDepth 20000 in
/-- A comment of three bytes less than the buffer throws the line behind it away. -/
theorem line_skipped :
    let comment : List UInt8 := 35 :: replicate (lineSize - 4) 45
    let file := comment ++ 10 :: (bytes "acl all src 0.0.0.0/0.0.0.0" ++ 10 :: [])
    (parseFile 0 (some file) (fun _ => true)).2 = [(file.length, comment ++ [10]), (0, [])] ∧
      (confLines file).length = 2 ∧
      ¬ LinesHanded file (parseFile 0 (some file) (fun _ => true)).2 := by
  unfold LinesHanded
  decide +kernel

end CIcap
