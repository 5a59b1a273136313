import CIcap.Chunk.Decode
import CIcap.Header.Buffer

/-! # Time values of access lists

`acl_time_dup` of `acl.c` reads a list of days and a range of hours from a text. The text is copied
to a buffer of 1024 bytes first; a pointer into the buffer is the list of bytes from it on, with the
zero at the end of the text as the last one. `acl_time_equal` compares the time of a request with
the value.
-/

namespace CIcap

open CText List

/-! ## The parser -/

/-- `struct acl_time_data` -/
structure AclTimeData where
  days : Nat
  startTime : Nat
  endTime : Nat
deriving DecidableEq, Repr

namespace AclTime

/-- The table `days`. -/
def dayTable : List (List UInt8 × Nat) :=
  [(bytes "Sunday", 0), (bytes "Monday", 1), (bytes "Tuesday", 2), (bytes "Wednesday", 3),
    (bytes "Thursday", 4), (bytes "Friday", 5), (bytes "Saturday", 6),
    (bytes "S", 0), (bytes "M", 1), (bytes "T", 2), (bytes "W", 3), (bytes "H", 4), (bytes "F", 5),
    (bytes "A", 6)]

/-- The first day of the table whose name the text starts with. -/
def findDay (s : List UInt8) : Option (List UInt8 × Nat) :=
  dayTable.find? (fun d => strncasecmp s d.1 d.1.length)

/-- The loop over the days: the mask of the days and the text behind them. Each round takes a name
off the text, whose length is enough fuel. -/
def dayLoop : Nat → Nat → List UInt8 → Option (Nat × List UInt8)
  | 0, _, _ => none
  | fuel + 1, days, s =>
    let s := if s.headD 0 = 44 then s.drop 1 else s
    match findDay s with
    | none => none
    | some (name, id) =>
      let days := days ||| 1 <<< id
      let s := s.drop name.length
      if s.headD 0 = 44 then dayLoop fuel days s else some (days, s)

/-- `isdigit` -/
def isDigit (b : UInt8) : Bool := (digitVal 10 b).isSome

/-- `strtol` to an `int`, which has to be between 0 and `limit`. -/
def clockNumber (limit : Nat) (s : List UInt8) : Option (Nat × List UInt8) :=
  match strtol 10 s with
  | none => none
  | some (v, e) =>
    if toInt32 v < 0 ∨ toInt32 v > limit then none else some ((toInt32 v).toNat, e)

/-- A number that the byte `c` and one more digit have to follow, and the text from that digit on. -/
def clockField (limit : Nat) (c : UInt8) (s : List UInt8) : Option (Nat × List UInt8) :=
  match clockNumber limit s with
  | none => none
  | some (n, e) => if e.headD 0 ≠ c ∨ isDigit (e.getD 1 0) = false then none else some (n, e.drop 1)

/-- The time region `HH:MM-HH:MM`. -/
def timeRegion (days : Nat) (s : List UInt8) : Option AclTimeData :=
  if isDigit (s.headD 0) = false then none
  else do
    let (h1, s) ← clockField 24 58 s
    let (m1, s) ← clockField 59 45 s
    let (h2, s) ← clockField 24 58 s
    let (m2, _) ← clockNumber 59 s
    if h1 * 60 + m1 ≤ h2 * 60 + m2 then some ⟨days, h1 * 60 + m1, h2 * 60 + m2⟩ else none

end AclTime

open AclTime

/-- `acl_time_dup` -/
def aclTimeDup (str : List UInt8) : Option AclTimeData :=
  let s := str.take 1023 ++ [0]
  if isDigit (s.headD 0) = false then
    match dayLoop s.length 0 s with
    | none => none
    | some (days, s) => if s.headD 0 ≠ 47 then none else timeRegion days (s.drop 1)
  else timeRegion 0 s

/-- `acl_time_equal` -/
def aclTimeEqual (tmdAcl tmdRequest : AclTimeData) : Bool :=
  (tmdAcl.days &&& tmdRequest.days) != 0 && tmdRequest.startTime ≥ tmdAcl.startTime
    && tmdRequest.startTime ≤ tmdAcl.endTime

/-- `get_time_data` at a minute of a weekday. -/
def getTimeData (wday minute : Nat) : AclTimeData :=
  { days := 1 <<< wday, startTime := minute, endTime := 0 }

namespace AclTime

/-! ## Names of days -/

theorem strncasecmp_stop {name : List UInt8} (hname : ∀ c ∈ name, 97 ≤ lower c) {b : UInt8}
    (hb : lower b < 97) (rest w : List UInt8) :
    strncasecmp (w ++ b :: rest) name name.length = strncasecmp w name name.length := by
  induction name generalizing w with
  | nil => simp [strncasecmp]
  | cons c name ih =>
    have hc : 97 ≤ lower c := hname c (by simp)
    cases w with
    | nil =>
      -- the text ends, or goes on with a byte that is in no name
      have hne : lower b ≠ lower c := fun h => absurd (h ▸ hc) (UInt8.not_le.mpr hb)
      have hzero : lower 0 ≠ lower c := fun h => absurd (h ▸ hc) (by decide)
      simp [strncasecmp, hne, hzero]
    | cons x w =>
      have hrest := ih (fun c h => hname c (by simp [h])) w
      simp [strncasecmp, hrest]

theorem dayTable_letters : ∀ d ∈ dayTable, ∀ c ∈ d.1, 97 ≤ lower c := by decide +kernel

theorem findDay_stop {b : UInt8} (hb : lower b < 97) (rest w : List UInt8) :
    findDay (w ++ b :: rest) = findDay w := by
  apply find?_congr
  intro d hd
  exact strncasecmp_stop (dayTable_letters d hd) hb rest w

/-! ## The loop over the days -/

theorem dayLoop_suffix {fuel days : Nat} {s : List UInt8} {out : Nat × List UInt8}
    (h : dayLoop fuel days s = some out) : out.2 <:+ s := by
  induction fuel generalizing days s with
  | zero => cases h
  | succ fuel ih =>
    have hcomma : (if s.headD 0 = 44 then s.drop 1 else s) <:+ s := by
      split
      · exact drop_suffix 1 s
      · exact suffix_refl s
    rw [dayLoop] at h
    generalize (if s.headD 0 = 44 then s.drop 1 else s) = t at h hcomma
    cases hday : findDay t with
    | none => simp [hday] at h
    | some d =>
      simp only [hday] at h
      have hdrop : t.drop d.1.length <:+ s := (drop_suffix _ t).trans hcomma
      split at h
      · exact (ih h).trans hdrop
      · cases h
        exact hdrop

/-- One round on a name: the text goes on with a comma, or the loop ends. -/
theorem dayLoop_name {name : List UInt8} {id : Nat} (hname : findDay name = some (name, id))
    (hhead : name.headD 0 ≠ 44) (hne : name ≠ []) {b : UInt8} (hb : lower b < 97)
    (comma : Bool) (fuel days : Nat) (rest : List UInt8) :
    dayLoop (fuel + 1) days ((if comma then [44] else []) ++ name ++ b :: rest) =
      if b = 44 then dayLoop fuel (days ||| 1 <<< id) (b :: rest)
      else some (days ||| 1 <<< id, b :: rest) := by
  have hstart : (if ((if comma then [44] else []) ++ name ++ b :: rest).headD 0 = 44
      then ((if comma then [44] else []) ++ name ++ b :: rest).drop 1
      else (if comma then [44] else []) ++ name ++ b :: rest) = name ++ b :: rest := by
    cases comma with
    | true => simp
    | false =>
      obtain ⟨c, name, rfl⟩ := exists_cons_of_ne_nil hne
      have hc : c ≠ 44 := hhead
      simp [hc]
  rw [dayLoop, hstart]
  rw [findDay_stop hb, hname]
  simp

/-! ## The numbers of the range -/

theorem digit_small {ds : List UInt8} (hds : AllDigits 10 ds) (hlen : ds.length ≤ 2) :
    digitsValue 10 ds ≤ 99 := by
  have hdigit : ∀ b ∈ ds, (digitVal 10 b).getD 0 ≤ 9 := by
    intro b hb
    obtain ⟨v, hv⟩ := Option.isSome_iff_exists.mp (hds b hb)
    rw [hv]
    unfold digitVal at hv
    split at hv
    · cases hv
      simp only [Option.getD_some]
      omega
    · cases hv
  match ds, hlen with
  | [], _ => simp [digitsValue]
  | [a], _ =>
    have ha := hdigit a (by simp)
    simp only [digitsValue, foldl_cons, foldl_nil]
    omega
  | [a, b], _ =>
    have ha := hdigit a (by simp)
    have hb := hdigit b (by simp)
    simp only [digitsValue, foldl_cons, foldl_nil]
    omega

theorem digitsValue_take_le (ds : List UInt8) (k : Nat) :
    digitsValue 10 (ds.take k) ≤ digitsValue 10 ds := by
  have hgrow : ∀ (ds : List UInt8) (acc : Nat),
      acc ≤ ds.foldl (fun acc b => acc * 10 + (digitVal 10 b).getD 0) acc := by
    intro ds
    induction ds with
    | nil => simp
    | cons b ds ih =>
      intro acc
      calc acc ≤ acc * 10 + (digitVal 10 b).getD 0 := by omega
        _ ≤ _ := ih _
  calc digitsValue 10 (ds.take k)
      ≤ (ds.drop k).foldl (fun acc b => acc * 10 + (digitVal 10 b).getD 0)
          (digitsValue 10 (ds.take k)) := hgrow _ _
    _ = digitsValue 10 (ds.take k ++ ds.drop k) := by
        rw [digitsValue, digitsValue, foldl_append]
    _ = digitsValue 10 ds := by rw [take_append_drop]

theorem clockNumber_digits {ds : List UInt8} (hne : ds ≠ []) (hds : AllDigits 10 ds)
    (hlen : ds.length ≤ 2) (limit : Nat) {b : UInt8} (hb : isDigit b = false)
    (hx : b ≠ 120 ∧ b ≠ 88) (rest : List UInt8) :
    clockNumber limit (ds ++ b :: rest) =
      if digitsValue 10 ds ≤ limit then some (digitsValue 10 ds, b :: rest) else none := by
  have hsmall := digit_small hds hlen
  have hstop : digitVal 10 b = none := by simpa [isDigit] using hb
  rw [clockNumber, strtol_digits hne hds (by omega) hstop hx (by omega)]
  simp only [toInt32_of_lt (show digitsValue 10 ds < 2 ^ 31 by omega), Int.toNat_natCast]
  by_cases hle : digitsValue 10 ds ≤ limit
  · rw [if_pos hle, if_neg (by omega)]
  · rw [if_neg hle, if_pos (by omega)]

end AclTime

end CIcap
