import CIcap.Acl.Time
import Mathlib.Data.Nat.Bitwise

/-! # The documented form of time values

A time value is written `[DAY[,DAY,[..]]][/][HH:MM-HH:MM]`. `TimeSpec` is a text of this form with
what it says: the days, in full or as a letter, and a range of minutes of the day. `Means` is the
time it stands for.

`acl_time_dup` reads such a text as it should when it has both parts and the slash, and when it is
not longer than the buffer. A range without days is read, but never matches.
-/

namespace CIcap

open CText AclTime List

/-! ## Texts of the documented form -/

/-- The days of the week, Sunday first as in `tm_wday`. -/
inductive Weekday
  | sunday | monday | tuesday | wednesday | thursday | friday | saturday
deriving DecidableEq, Repr

namespace Weekday

def wday : Weekday → Nat
  | sunday => 0 | monday => 1 | tuesday => 2 | wednesday => 3
  | thursday => 4 | friday => 5 | saturday => 6

def fullName : Weekday → List UInt8
  | sunday => bytes "Sunday" | monday => bytes "Monday" | tuesday => bytes "Tuesday"
  | wednesday => bytes "Wednesday" | thursday => bytes "Thursday" | friday => bytes "Friday"
  | saturday => bytes "Saturday"

def letter : Weekday → List UInt8
  | sunday => bytes "S" | monday => bytes "M" | tuesday => bytes "T" | wednesday => bytes "W"
  | thursday => bytes "H" | friday => bytes "F" | saturday => bytes "A"

theorem wday_injective {d e : Weekday} (h : d.wday = e.wday) : d = e := by
  cases d <;> cases e <;> first | rfl | exact absurd h (by decide)

end Weekday

/-- A day with its full name or its letter. -/
structure DayName where
  day : Weekday
  full : Bool
deriving DecidableEq, Repr

def DayName.text (d : DayName) : List UInt8 := if d.full then d.day.fullName else d.day.letter

/-- `HH` and `MM`: one or two digits. -/
structure ClockDigits where
  text : List UInt8
  digits : AllDigits 10 text
  ne_nil : text ≠ []
  length_le : text.length ≤ 2

def ClockDigits.value (n : ClockDigits) : Nat := digitsValue 10 n.text

/-- `HH:MM-HH:MM`, the start not after the end. -/
structure ClockRange where
  h1 : ClockDigits
  m1 : ClockDigits
  h2 : ClockDigits
  m2 : ClockDigits
  h1_le : h1.value ≤ 24
  m1_le : m1.value ≤ 59
  h2_le : h2.value ≤ 24
  m2_le : m2.value ≤ 59
  ordered : h1.value * 60 + m1.value ≤ h2.value * 60 + m2.value

namespace ClockRange

def start (r : ClockRange) : Nat := r.h1.value * 60 + r.m1.value

def finish (r : ClockRange) : Nat := r.h2.value * 60 + r.m2.value

def text (r : ClockRange) : List UInt8 :=
  r.h1.text ++ 58 :: (r.m1.text ++ 45 :: (r.h2.text ++ 58 :: r.m2.text))

/-- What stands in front of the last two digits. -/
def headLength (r : ClockRange) : Nat :=
  r.h1.text.length + 1 + (r.m1.text.length + 1) + (r.h2.text.length + 1)

end ClockRange

def daysText : List DayName → List UInt8
  | [] => []
  | d :: ds => d.text ++ ds.flatMap (fun e => 44 :: e.text)

/-- A text of the documented form: at least one of its two parts is there. -/
structure TimeSpec where
  days : List DayName
  slash : Bool
  range : Option ClockRange
  part : days ≠ [] ∨ range.isSome

namespace TimeSpec

def text (spec : TimeSpec) : List UInt8 :=
  daysText spec.days ++ ((if spec.slash then [47] else []) ++
    (spec.range.map ClockRange.text).getD [])

/-- The time that the text stands for. -/
def Means (spec : TimeSpec) (d : Weekday) (t : Nat) : Prop :=
  (spec.days = [] ∨ d ∈ spec.days.map DayName.day) ∧ ∀ r ∈ spec.range, r.start ≤ t ∧ t ≤ r.finish

/-- The text is accepted, and its value matches at the minutes of the week it stands for. -/
def Handled (spec : TimeSpec) : Prop :=
  ∃ acl, aclTimeDup spec.text = some acl ∧
    ∀ (d : Weekday) (t : Nat), t < 24 * 60 →
      (aclTimeEqual acl (getTimeData d.wday t) = true ↔ spec.Means d t)

end TimeSpec

/-! ## Reading the days -/

variable (d : DayName)

theorem findDay_text : findDay d.text = some (d.text, d.day.wday) := by
  obtain ⟨day, full⟩ := d
  cases day <;> cases full <;> decide +kernel

theorem DayName.text_letters : d.text ≠ [] ∧ ∀ b ∈ d.text, 97 ≤ lower b := by
  obtain ⟨day, full⟩ := d
  cases day <;> cases full <;> decide +kernel

theorem DayName.text_head : d.text.headD 0 ≠ 44 ∧ isDigit (d.text.headD 0) = false := by
  obtain ⟨day, full⟩ := d
  cases day <;> cases full <;> decide +kernel

/-- The mask of a list of days on top of `mask`. -/
def dayMask (mask : Nat) (ds : List DayName) : Nat :=
  ds.foldl (fun m d => m ||| 1 <<< d.day.wday) mask

theorem dayMask_testBit (ds : List DayName) (mask i : Nat) : (dayMask mask ds).testBit i = true ↔
      mask.testBit i = true ∨ i ∈ ds.map (fun d => d.day.wday) := by
  induction ds generalizing mask with
  | nil => simp [dayMask]
  | cons d ds ih =>
    have hstep : (dayMask (mask ||| 1 <<< d.day.wday) ds).testBit i = true ↔
        (mask ||| 1 <<< d.day.wday).testBit i = true ∨ i ∈ ds.map (fun d => d.day.wday) := ih _
    rw [dayMask, foldl_cons, ← dayMask, hstep, Nat.testBit_or, Bool.or_eq_true,
      Nat.one_shiftLeft, Nat.testBit_two_pow]
    simp only [decide_eq_true_eq, map_cons, mem_cons, or_assoc, eq_comm (a := i)]

/-- A request matches the days of a mask when its day is one of them. -/
theorem dayMask_matches (ds : List DayName) (d : Weekday) :
    (dayMask 0 ds &&& 1 <<< d.wday) ≠ 0 ↔ d ∈ ds.map DayName.day := by
  rw [Nat.one_shiftLeft, Nat.and_two_pow]
  have hbit := dayMask_testBit ds 0 d.wday
  have hmem : d.wday ∈ ds.map (fun e => e.day.wday) ↔ d ∈ ds.map DayName.day := by
    simp only [mem_map]
    constructor
    · rintro ⟨e, he, h⟩
      exact ⟨e, he, Weekday.wday_injective h⟩
    · rintro ⟨e, he, rfl⟩
      exact ⟨e, he, rfl⟩
  rw [hmem] at hbit
  have hiff : (dayMask 0 ds).testBit d.wday = true ↔ d ∈ ds.map DayName.day := by
    rw [hbit]
    simp
  rw [← hiff]
  cases (dayMask 0 ds).testBit d.wday <;> simp

/-- The loop reads a list of days up to a byte that no name goes on with. -/
theorem dayLoop_days (ds : List DayName) {b : UInt8} (hb : lower b < 97)
    (hcomma : b ≠ 44) (comma : Bool) (mask : Nat) (rest : List UInt8) {fuel : Nat}
    (hfuel : ds.length < fuel) :
    dayLoop fuel mask ((if comma then [44] else []) ++ daysText (d :: ds) ++ b :: rest) =
      some (dayMask mask (d :: ds), b :: rest) := by
  obtain ⟨fuel, rfl⟩ : ∃ k, fuel = k + 1 := ⟨fuel - 1, by omega⟩
  -- the induction is on the days behind the first one, with the mask so far
  induction ds generalizing d comma mask fuel with
  | nil =>
    have hround := dayLoop_name (findDay_text d) d.text_head.1 d.text_letters.1 hb comma fuel mask
      rest
    rw [if_neg hcomma] at hround
    simpa [daysText, dayMask] using hround
  | cons e ds ih =>
    obtain ⟨fuel, rfl⟩ : ∃ k, fuel = k + 1 := ⟨fuel - 1, by simp at hfuel; omega⟩
    have hround := dayLoop_name (findDay_text d) d.text_head.1 d.text_letters.1
      (show lower 44 < 97 by decide) comma (fuel + 1) mask (daysText (e :: ds) ++ b :: rest)
    have hrest := ih e true (mask ||| 1 <<< d.day.wday) fuel (by simpa using hfuel)
    rw [if_pos rfl] at hround
    calc dayLoop (fuel + 1 + 1) mask
          ((if comma then [44] else []) ++ daysText (d :: e :: ds) ++ b :: rest)
        = dayLoop (fuel + 1) (mask ||| 1 <<< d.day.wday)
            (44 :: (daysText (e :: ds) ++ b :: rest)) := by
          rw [← hround]
          simp [daysText]
      _ = some (dayMask mask (d :: e :: ds), b :: rest) := by
          simpa [dayMask] using hrest

/-! ## Reading the range -/

namespace AclTime

variable (n : ClockDigits)

/-- A number and the byte behind it in a text that is cut after `j` bytes: the byte and one digit
more have to be there. -/
theorem clockField_take {limit : Nat} (hn : n.value ≤ limit) {c : UInt8}
    (hc : isDigit c = false ∧ c ≠ 120 ∧ c ≠ 88 ∧ c ≠ 0) {rest : List UInt8}
    (hrest : isDigit (rest.headD 0) = true) {j : Nat} (hj : 0 < j) :
    clockField limit c ((n.text ++ c :: rest).take j ++ [0]) =
      if j ≤ n.text.length + 1 then none
      else some (n.value, rest.take (j - (n.text.length + 1)) ++ [0]) := by
  by_cases hcut : j ≤ n.text.length
  · -- the digits end with the text
    have htake : (n.text ++ c :: rest).take j = n.text.take j := take_append_of_le_length hcut
    have hne : n.text.take j ≠ [] := by
      simp only [ne_eq, take_eq_nil_iff, not_or]
      exact ⟨by omega, n.ne_nil⟩
    have hdigits : AllDigits 10 (n.text.take j) := fun b hb => n.digits b (mem_of_mem_take hb)
    have hlen : (n.text.take j).length ≤ 2 := by
      have := n.length_le
      simp
      omega
    rw [if_pos (by omega), htake, clockField,
      clockNumber_digits hne hdigits hlen limit (by decide) (by decide)]
    by_cases hle : digitsValue 10 (n.text.take j) ≤ limit
    · simp [hle, hc.2.2.2.symm]
    · simp [hle]
  · obtain ⟨k, rfl⟩ : ∃ k, j = n.text.length + 1 + k := ⟨j - (n.text.length + 1), by omega⟩
    have htake : (n.text ++ c :: rest).take (n.text.length + 1 + k) ++ [0] =
        n.text ++ c :: (rest.take k ++ [0]) := by
      rw [take_append, take_of_length_le (by omega)]
      simp [show n.text.length + 1 + k - n.text.length = k + 1 by omega]
    rw [htake, clockField, clockNumber_digits n.ne_nil n.digits n.length_le limit hc.1
      ⟨hc.2.1, hc.2.2.1⟩, ← ClockDigits.value, if_pos hn]
    cases k with
    | zero => simp [show isDigit 0 = false by decide]
    | succ k =>
      obtain ⟨x, rest, rfl⟩ : ∃ x r, rest = x :: r := by
        cases rest with
        | nil => simp [isDigit] at hrest; exact absurd hrest (by decide)
        | cons x r => exact ⟨x, r, rfl⟩
      have hx : isDigit x = true := hrest
      simp [hx]

theorem isDigit_head (rest : List UInt8) : isDigit ((n.text ++ rest).headD 0) = true := by
  obtain ⟨x, ds, h⟩ := exists_cons_of_ne_nil n.ne_nil
  have hx := n.digits x (by simp [h])
  simpa [h, isDigit] using hx

/-- The end of the range as the first `j` bytes of its text have it. -/
def cutFinish (r : ClockRange) (j : Nat) : Nat :=
  r.h2.value * 60 + digitsValue 10 (r.m2.text.take (j - r.headLength))

/-- A range whose text is cut after `j` bytes: it is read as far as its last number is there. -/
theorem timeRegion_take (mask : Nat) (r : ClockRange) (j : Nat) :
    timeRegion mask (r.text.take j ++ [0]) =
      if r.headLength < j ∧ r.start ≤ cutFinish r j then some ⟨mask, r.start, cutFinish r j⟩
      else none := by
  have hcolon : isDigit 58 = false ∧ (58 : UInt8) ≠ 120 ∧ (58 : UInt8) ≠ 88 ∧ (58 : UInt8) ≠ 0 := by
    decide
  have hdash : isDigit 45 = false ∧ (45 : UInt8) ≠ 120 ∧ (45 : UInt8) ≠ 88 ∧ (45 : UInt8) ≠ 0 := by
    decide
  have hlast : isDigit (r.m2.text.headD 0) = true := by
    simpa using isDigit_head r.m2 []
  by_cases hj : j = 0
  · subst hj
    rw [timeRegion, take_zero, if_pos (by decide), if_neg (by omega)]
  have hhead : isDigit ((r.text.take j ++ [0]).headD 0) = true := by
    obtain ⟨j, rfl⟩ := Nat.exists_eq_succ_of_ne_zero hj
    obtain ⟨x, ds, h⟩ := exists_cons_of_ne_nil r.h1.ne_nil
    simpa [ClockRange.text, h, isDigit] using r.h1.digits x (by simp [h])
  have hlen : r.headLength = r.h1.text.length + 1 + (r.m1.text.length + 1) +
      (r.h2.text.length + 1) := rfl
  rw [timeRegion, if_neg (by rw [hhead]; decide), ClockRange.text,
    clockField_take r.h1 r.h1_le hcolon (isDigit_head _ _) (by omega)]
  -- at each of the three separators the cut text may end
  by_cases h1 : j ≤ r.h1.text.length + 1
  · rw [if_pos h1, if_neg (by omega)]
    rfl
  rw [if_neg h1]
  dsimp only [Option.bind_eq_bind, Option.bind_some]
  rw [clockField_take r.m1 r.m1_le hdash (isDigit_head _ _) (by omega)]
  by_cases h2 : j - (r.h1.text.length + 1) ≤ r.m1.text.length + 1
  · rw [if_pos h2, if_neg (by omega)]
    rfl
  rw [if_neg h2]
  dsimp only [Option.bind_some]
  rw [clockField_take r.h2 r.h2_le hcolon hlast (by omega)]
  by_cases h3 : j - (r.h1.text.length + 1) - (r.m1.text.length + 1) ≤ r.h2.text.length + 1
  · rw [if_pos h3, if_neg (by omega)]
    rfl
  rw [if_neg h3]
  dsimp only [Option.bind_some]
  have hrest : j - (r.h1.text.length + 1) - (r.m1.text.length + 1) - (r.h2.text.length + 1) =
      j - r.headLength := by omega
  have hne : r.m2.text.take (j - r.headLength) ≠ [] := by
    simp only [ne_eq, take_eq_nil_iff, not_or]
    exact ⟨by omega, r.m2.ne_nil⟩
  have hdigits : AllDigits 10 (r.m2.text.take (j - r.headLength)) := fun b hb =>
    r.m2.digits b (mem_of_mem_take hb)
  have hlength : (r.m2.text.take (j - r.headLength)).length ≤ 2 :=
    (length_take_le' _ _).trans r.m2.length_le
  have hle : digitsValue 10 (r.m2.text.take (j - r.headLength)) ≤ 59 :=
    (digitsValue_take_le _ _).trans r.m2_le
  rw [hrest, clockNumber_digits hne hdigits hlength 59 (by decide) (by decide), if_pos hle]
  change (if r.start ≤ cutFinish r j then
    some (AclTimeData.mk mask r.start (cutFinish r j)) else none) = _
  by_cases hord : r.start ≤ cutFinish r j
  · rw [if_pos hord, if_pos ⟨by omega, hord⟩]
  · rw [if_neg hord, if_neg (fun h => hord h.2)]

/-! ## Reading the whole text -/

theorem daysText_slash (ds : List DayName) : 47 ∉ daysText ds := by
  have hname : ∀ d : DayName, 47 ∉ d.text := fun d h =>
    absurd (d.text_letters.2 47 h) (by decide)
  cases ds with
  | nil => simp [daysText]
  | cons d ds =>
    simp only [daysText, mem_append, mem_flatMap, mem_cons, not_or, not_exists, not_and]
    exact ⟨hname d, fun e _ => ⟨by decide, hname e⟩⟩

theorem ClockDigits.text_slash : 47 ∉ n.text := fun h =>
  absurd (n.digits 47 h) (by decide)

theorem rangeText_slash (r : ClockRange) : 47 ∉ r.text := by
  simp only [ClockRange.text, mem_append, mem_cons, not_or]
  exact ⟨ClockDigits.text_slash _, by decide, ClockDigits.text_slash _, by decide,
    ClockDigits.text_slash _, by decide, ClockDigits.text_slash _⟩

theorem daysText_head (d : DayName) (ds : List DayName) (rest : List UInt8) :
    isDigit (((daysText (d :: ds) ++ rest).take 1023 ++ [0]).headD 0) = false := by
  obtain ⟨x, w, h⟩ := exists_cons_of_ne_nil d.text_letters.1
  have hx := d.text_head.2
  simpa [daysText, h] using hx

/-- A text that starts with no digit needs a slash in the buffer. -/
theorem dup_without_slash {str : List UInt8}
    (hhead : isDigit ((str.take 1023 ++ [0]).headD 0) = false) (hslash : 47 ∉ str.take 1023) :
    aclTimeDup str = none := by
  rw [aclTimeDup, if_pos hhead]
  cases hloop : dayLoop (str.take 1023 ++ [0]).length 0 (str.take 1023 ++ [0]) with
  | none => rfl
  | some out =>
    have hnot : 47 ∉ out.2 := fun h => by
      have := (dayLoop_suffix hloop).subset h
      simp [hslash] at this
    have hne : out.2.headD 0 ≠ 47 := by
      cases hout : out.2 with
      | nil => decide
      | cons b rest =>
        rintro rfl
        exact hnot (by simp [hout])
    exact if_pos hne

theorem dup_slash_first (rest : List UInt8) : aclTimeDup (47 :: rest) = none := by
  have hday : findDay (47 :: (rest.take 1022 ++ [0])) = none := by
    have h := findDay_stop (b := 47) (by decide) (rest.take 1022 ++ [0]) []
    rw [nil_append] at h
    rw [h]
    decide +kernel
  rw [aclTimeDup]
  simp [show isDigit 47 = false by decide, dayLoop, hday]

/-- A list of days and a slash: the range is read from what is left of the buffer. -/
theorem dup_days (d : DayName) (ds : List DayName) (rest : List UInt8) :
    aclTimeDup (daysText (d :: ds) ++ 47 :: rest) =
      if (daysText (d :: ds)).length < 1023 then
        timeRegion (dayMask 0 (d :: ds)) (rest.take (1022 - (daysText (d :: ds)).length) ++ [0])
      else none := by
  have hhead := daysText_head d ds (47 :: rest)
  by_cases hlen : (daysText (d :: ds)).length < 1023
  · have htake : (daysText (d :: ds) ++ 47 :: rest).take 1023 ++ [0] =
        daysText (d :: ds) ++ 47 :: (rest.take (1022 - (daysText (d :: ds)).length) ++ [0]) := by
      rw [take_append, take_of_length_le (by omega),
        show 1023 - (daysText (d :: ds)).length = 1022 - (daysText (d :: ds)).length + 1 by omega]
      simp
    have hfuel : ds.length <
        (daysText (d :: ds) ++ 47 :: (rest.take (1022 - (daysText (d :: ds)).length) ++ [0])).length := by
      simp [daysText]
      omega
    have hloop := dayLoop_days d ds (b := 47) (by decide) (by decide) false 0
      (rest.take (1022 - (daysText (d :: ds)).length) ++ [0]) hfuel
    simp only [Bool.false_eq_true, if_false, nil_append] at hloop
    rw [aclTimeDup, if_pos hhead, htake, hloop, if_pos hlen]
    rfl
  · rw [if_neg hlen]
    apply dup_without_slash hhead
    rw [take_append_of_le_length (by omega)]
    exact fun h => daysText_slash _ (mem_of_mem_take h)

theorem dup_range (r : ClockRange) : aclTimeDup r.text = some ⟨0, r.start, r.finish⟩ := by
  have h1 := r.h1.length_le
  have h2 := r.m1.length_le
  have h3 := r.h2.length_le
  have h4 := r.m2.length_le
  have hhead : isDigit ((r.text.take 1023 ++ [0]).headD 0) = true := by
    obtain ⟨x, ds, h⟩ := exists_cons_of_ne_nil r.h1.ne_nil
    simpa [ClockRange.text, h, isDigit] using r.h1.digits x (by simp [h])
  have hlen : r.headLength ≤ 9 := by
    rw [ClockRange.headLength]
    omega
  have hcut : cutFinish r 1023 = r.finish := by
    rw [cutFinish, take_of_length_le (by omega)]
    rfl
  rw [aclTimeDup, hhead, if_neg (by decide), timeRegion_take, hcut, if_pos ⟨by omega, r.ordered⟩]

end AclTime

namespace TimeSpec

/-! ## Texts that are handled -/

/-- What the buffer has left for the range, behind the days and the slash. -/
def room (spec : TimeSpec) : Nat := 1022 - (daysText spec.days).length

/-- The text has a range; with days it has a slash, and the range fits the buffer, or what is cut
off does not change the minutes of the day it has; without days it has no minute of the day. -/
def Readable (spec : TimeSpec) : Prop :=
  ∃ r, spec.range = some r ∧
    if spec.days = [] then spec.slash = false ∧ 24 * 60 ≤ r.start
    else spec.slash = true ∧ r.headLength < spec.room ∧ r.start ≤ cutFinish r spec.room ∧
      (cutFinish r spec.room = r.finish ∨ 24 * 60 ≤ cutFinish r spec.room + 1)

theorem equal_iff (mask a b w t : Nat) : aclTimeEqual ⟨mask, a, b⟩ (getTimeData w t) = true ↔
      (mask &&& 1 <<< w) ≠ 0 ∧ a ≤ t ∧ t ≤ b := by
  have h : ∀ acl req : AclTimeData, aclTimeEqual acl req = true ↔
      (acl.days &&& req.days) ≠ 0 ∧ acl.startTime ≤ req.startTime ∧
        req.startTime ≤ acl.endTime := by
    intro acl req
    simp only [aclTimeEqual, Bool.and_eq_true, bne_iff_ne, decide_eq_true_eq, and_assoc]
  exact h _ _

/-- A range without days is handled when no minute of the day is in it. -/
theorem handled_range_iff (r : ClockRange) (slash : Bool) (part) :
    Handled ⟨[], slash, some r, part⟩ ↔ slash = false ∧ 24 * 60 ≤ r.start := by
  cases slash with
  | true =>
    have hnone : aclTimeDup (text ⟨[], true, some r, part⟩) = none := dup_slash_first r.text
    simp [Handled, hnone]
  | false =>
    have hsome : aclTimeDup (text ⟨[], false, some r, part⟩) = some ⟨0, r.start, r.finish⟩ :=
      dup_range r
    simp only [Handled, hsome, Option.some.injEq, exists_eq_left', equal_iff, Means]
    constructor
    · intro h
      refine ⟨trivial, ?_⟩
      by_contra hlt
      have hmatch := (h .sunday r.start (by omega)).mpr ⟨.inl trivial, by
        rintro r' ⟨⟩
        exact ⟨le_refl _, r.ordered⟩⟩
      simp at hmatch
    · rintro ⟨-, hlate⟩ d t ht
      constructor
      · rintro ⟨hday, -⟩
        simp at hday
      · rintro ⟨-, hr⟩
        have := (hr r rfl).1
        omega

theorem cutFinish_le (r : ClockRange) (j : Nat) : cutFinish r j ≤ r.finish := by
  have := digitsValue_take_le r.m2.text (j - r.headLength)
  rw [cutFinish, ClockRange.finish, ClockDigits.value, ClockDigits.value]
  omega

/-- Days and a range with the slash between them: what is left of the buffer decides. -/
theorem handled_days_iff (d : DayName) (ds : List DayName) (r : ClockRange) (part) :
    Handled ⟨d :: ds, true, some r, part⟩ ↔ r.headLength < room ⟨d :: ds, true, some r, part⟩ ∧
      r.start ≤ cutFinish r (room ⟨d :: ds, true, some r, part⟩) ∧
      (cutFinish r (room ⟨d :: ds, true, some r, part⟩) = r.finish ∨
        24 * 60 ≤ cutFinish r (room ⟨d :: ds, true, some r, part⟩) + 1) := by
  obtain ⟨j, hj⟩ : ∃ j, j = room ⟨d :: ds, true, some r, part⟩ := ⟨_, rfl⟩
  have hdup : aclTimeDup (text ⟨d :: ds, true, some r, part⟩) =
      if r.headLength < j ∧ r.start ≤ cutFinish r j then
        some ⟨dayMask 0 (d :: ds), r.start, cutFinish r j⟩ else none := by
    have h := dup_days d ds r.text
    rw [timeRegion_take] at h
    refine Eq.trans h ?_
    by_cases hlen : (daysText (d :: ds)).length < 1023
    · rw [if_pos hlen, hj]
      rfl
    · have hzero : j = 0 := by
        rw [hj]
        exact Nat.sub_eq_zero_of_le (show 1022 ≤ (daysText (d :: ds)).length by omega)
      rw [if_neg hlen, if_neg (by omega)]
  rw [← hj, Handled, hdup]
  by_cases hread : r.headLength < j ∧ r.start ≤ cutFinish r j
  · have hle := cutFinish_le r j
    rw [if_pos hread]
    simp only [Option.some.injEq, exists_eq_left', equal_iff, dayMask_matches]
    constructor
    · intro h
      by_contra hcon
      -- the minute behind the end that was read is in the range
      have hmatch := (h d.day (cutFinish r j + 1) (by omega)).mpr ⟨.inr (by simp), by
        rintro r' ⟨⟩
        omega⟩
      omega
    · intro hend e t ht
      constructor
      · rintro ⟨hday, hstart, hfin⟩
        refine ⟨.inr hday, ?_⟩
        rintro r' ⟨⟩
        omega
      · rintro ⟨hday, hr⟩
        have := hr r rfl
        refine ⟨hday.resolve_left (by simp), ?_⟩
        omega
  · simp only [if_neg hread]
    constructor
    · rintro ⟨acl, h, -⟩
      cases h
    · rintro ⟨h1, h2, -⟩
      exact absurd ⟨h1, h2⟩ hread

/-- A text of the documented form is accepted and matches the times it stands for exactly when it
is readable. -/
theorem time_handled_iff (spec : TimeSpec) : spec.Handled ↔ spec.Readable := by
  obtain ⟨days, slash, range, part⟩ := spec
  match days, range, slash with
  | [], none, slash => simp at part
  | [], some r, slash => simp [handled_range_iff, Readable]
  | d :: ds, range, false =>
    have hnone : aclTimeDup (text ⟨d :: ds, false, range, part⟩) = none := by
      apply dup_without_slash (daysText_head d ds _)
      intro h
      rcases mem_append.mp (mem_of_mem_take h) with h | h
      · exact daysText_slash _ h
      · cases range with
        | none => simp at h
        | some r => exact rangeText_slash r h
    simp [Handled, hnone, Readable]
  | d :: ds, none, true =>
    have hnone : aclTimeDup (text ⟨d :: ds, true, none, part⟩) = none := by
      have h := dup_days d ds []
      refine Eq.trans h ?_
      have hempty : timeRegion (dayMask 0 (d :: ds)) ([] ++ [0]) = none := if_pos (by decide)
      rw [take_nil, hempty, ite_self]
    simp [Handled, hnone, Readable]
  | d :: ds, some r, true => simp [handled_days_iff, Readable]

/-- The days `M,T` are rejected, and the range `20:00-24:00` of the documentation does not match at
nine in the evening. -/
theorem time_not_matched :
    let weekStart : TimeSpec := ⟨[⟨.monday, false⟩, ⟨.tuesday, false⟩], false, none, by decide⟩
    let evening : ClockRange :=
      { h1 := ⟨bytes "20", by decide, by decide, by decide⟩
        m1 := ⟨bytes "00", by decide, by decide, by decide⟩
        h2 := ⟨bytes "24", by decide, by decide, by decide⟩
        m2 := ⟨bytes "00", by decide, by decide, by decide⟩
        h1_le := by decide
        m1_le := by decide
        h2_le := by decide
        m2_le := by decide
        ordered := by decide }
    let parentsTime : TimeSpec := ⟨[], false, some evening, by decide⟩
    weekStart.text = bytes "M,T" ∧ aclTimeDup weekStart.text = none ∧
      parentsTime.text = bytes "20:00-24:00" ∧
      aclTimeDup parentsTime.text = some ⟨0, 1200, 1440⟩ ∧
      parentsTime.Means .friday (21 * 60) ∧
      aclTimeEqual ⟨0, 1200, 1440⟩ (getTimeData Weekday.friday.wday (21 * 60)) = false := by
  refine ⟨by decide +kernel, by decide +kernel, by decide +kernel, by decide +kernel, ?_, by decide⟩
  refine ⟨.inl rfl, ?_⟩
  rintro r ⟨⟩
  decide +kernel

end TimeSpec

end CIcap
