import CIcap.Arrays.Flat
import CIcap.Lookup.Row

/-! # Keys and values of a line

`ci_parse_key_mvalues` of `util.c`, with which `c-icap-mklmdb` reads the lines of a table, for keys
and values that are strings. It does not write to the line: a key and a value are copied to an
array of 32768 bytes, and the values are added to a vector of 65535. The row parser of the text
tables and this one agree on a line, and find its key and its values, exactly if the line is
`SimpleLine`.
-/

namespace CIcap

open CText Scan CVector List

/-- The loop of `ci_parse_key_mvalues` over the values. -/
def valuesLoop (valsSep : UInt8) (rowCols : Nat) (buf : List UInt8) :
    Nat → Nat → Nat → CVector → Outcome CVector
  | 0, _, _, _ => .fault
  | fuel + 1, s, i, values =>
    match buf[s]? with
    | none => .fault
    | some b =>
      if b ≠ 0 ∧ i < rowCols - 1 then
        let v := forward isSpace buf s
        let e := forward (fun b => b != valsSep && b != 0) buf v
        let s := if byteAt buf e = 0 then e else e + 1
        match backward isSpace buf e with
        | none => .fault
        | some t =>
          -- `e - v` is `t - 1 - v`, and below zero it is a large `size_t`
          if t ≤ v ∨ 32767 < t - 1 - v then .error (-2)
          else if 32768 ≤ t - v then .fault
          else
            match values.strAdd ((buf.drop v).take (t - v)) with
            | none => .error (-3)
            | some values => valuesLoop valsSep rowCols buf fuel s (i + 1) values
      else .ok values

/-- The number of columns of a line with the key separator at `sep`. -/
def keyColumns (valsSep : UInt8) (buf : List UInt8) : Option Nat → Nat
  | none => 1
  | some sep => 2 + countChr buf sep valsSep

/-- `ci_parse_key_mvalues` -/
def parseKeyMvalues (m : Malloc) (keySep valsSep : UInt8) (buf : List UInt8) :
    Outcome (Option (List UInt8 × Option CVector)) :=
  let s := forward isSpace buf 0
  if byteAt buf s = 35 then .ok none
  else if byteAt buf s = 0 then .ok none
  else
    let sep := strchr buf s keySep
    let rowCols := keyColumns valsSep buf sep
    if 256 < rowCols then .error (-1)
    else
      let v := sep.getD (strEnd buf s)
      match backward isSpace buf v with
      | none => .fault
      | some e =>
        if 32767 < e - s then .error (-2)
        else
          let key := (buf.drop s).take (e - s)
          if rowCols ≤ 1 then .ok (some (key, none))
          else
            match create m 65535 with
            | none => .fault
            | some values =>
              match valuesLoop valsSep rowCols buf buf.length (v + 1) 0 values with
              | .fault => .fault
              | .error code => .error code
              | .ok values => .ok (some (key, some values))

/-! ## The values -/

section Values

variable {u q z : List UInt8} {c : UInt8} {fuel i rowCols : Nat} {values w : CVector}

/-- The first byte of a piece or of the comma behind it. -/
theorem exists_first (h0 : 0 ∉ q) (hc : c ≠ 0 ∨ q ≠ []) :
    ∃ b, (u ++ (q ++ c :: z))[u.length]? = some b ∧ b ≠ 0 := by
  cases q with
  | nil => exact ⟨c, by simp, hc.resolve_right (by simp)⟩
  | cons b q =>
    refine ⟨b, by simp, ?_⟩
    rintro rfl
    exact h0 mem_cons_self

/-- An empty value ends the loop: the pointer moves back over its start. -/
theorem valuesLoop_empty (fuel : Nat) (values : CVector) (hq : ∀ b ∈ q, isSpace b = true)
    (h0 : 0 ∉ q) (hc : c = 44 ∨ c = 0) (hcq : c ≠ 0 ∨ q ≠ []) (hi : i < rowCols - 1) :
    valuesLoop 44 rowCols (u ++ (q ++ c :: z)) (fuel + 1) u.length i values ≠ .ok w := by
  obtain ⟨b, hb, hb0⟩ := exists_first (u := u) (z := z) h0 hcq
  have hv : forward isSpace (u ++ (q ++ c :: z)) u.length = u.length + q.length :=
    forward_run hq (by rcases hc with rfl | rfl <;> rfl)
  have he : forward (fun b => b != 44 && b != 0) (u ++ (q ++ c :: z))
      (u.length + q.length) = u.length + q.length := by
    have hrun := forward_run (l := []) (p := fun b => b != 44 && b != 0) (u := u ++ q)
      (z := z) (c := c) (nofun) (by rcases hc with rfl | rfl <;> rfl)
    rw [append_assoc, length_append] at hrun
    exact hrun
  rw [valuesLoop, hb]
  dsimp only
  rw [if_pos ⟨hb0, hi⟩, hv, he]
  cases hback : backward isSpace (u ++ (q ++ c :: z)) (u.length + q.length) with
  | none => simp
  | some t =>
    have hle := backward_le hback
    dsimp only
    rw [if_pos (.inl hle)]
    simp

theorem valuesLoop_value (hq : 44 ∉ q) (h0 : 0 ∉ q) (hc : c = 44 ∨ c = 0)
    (hne : trim isSpace q ≠ []) (hi : i < rowCols - 1) :
    valuesLoop 44 rowCols (u ++ (q ++ c :: z)) (fuel + 1) u.length i values = .ok w ↔
      (trim isSpace q).length ≤ 32767 ∧ ∃ values', values.strAdd (trim isSpace q) = some values' ∧
        valuesLoop 44 rowCols (u ++ (q ++ c :: z)) fuel
          (if c = 0 then u.length + q.length else u.length + q.length + 1) (i + 1) values' =
            .ok w := by
  obtain ⟨b, hb, hb0⟩ := exists_first (u := u) (z := z) (c := c) h0
    (.inr fun hnil => hne (by rw [hnil]; rfl))
  obtain ⟨lead, trail, hqe, hval, hend, hback⟩ := value_bounds (u := u) (z := z) hq h0 hc hne
  have hpos : 0 < (trim isSpace q).length := length_pos_iff.mpr hne
  have hsub : u.length + (lead.length + (trim isSpace q).length) - (u.length + lead.length) =
      (trim isSpace q).length := by omega
  have htext : ((u ++ (q ++ c :: z)).drop (u.length + lead.length)).take
      (trim isSpace q).length = trim isSpace q := by
    have hbuf : u ++ (q ++ c :: z) = (u ++ lead) ++ (trim isSpace q ++ (trail ++ c :: z)) := by
      nth_rewrite 1 [hqe]
      simp
    rw [hbuf, ← length_append, drop_left, take_left]
  rw [valuesLoop, hb]
  dsimp only
  rw [if_pos ⟨hb0, hi⟩, hval, hend, hback, byteAt_append]
  dsimp only
  rw [hsub, htext]
  by_cases hlen : (trim isSpace q).length ≤ 32767
  · rw [if_neg (by omega), if_neg (by omega)]
    cases hadd : values.strAdd (trim isSpace q) with
    | none => simp
    | some values' => simp [hlen]
  · -- too long for the array, or just too long for the zero behind it
    simp only [hlen]
    rw [if_pos (by omega : 32768 ≤ (trim isSpace q).length)]
    split_ifs <;> simp

/-- **The values of a line**: no value is empty or too long, and the vector takes all of them. -/
theorem valuesLoop_ok_iff (fuel : Nat) : ∀ (rest u : List UInt8) (i : Nat) (values : CVector),
    0 ∉ rest → rest.length < fuel → rowCols = i + 2 + rest.count 44 →
    (valuesLoop 44 rowCols (u ++ (rest ++ [0])) fuel u.length i values = .ok w ↔
      (∀ q ∈ pieces 44 rest, trim isSpace q ≠ [] ∧ (trim isSpace q).length ≤ 32767) ∧
      values.addAll ((pieces 44 rest).map fun q => trim isSpace q ++ [0]) = some w) := by
  induction fuel with
  | zero => intro rest u i values _ hfuel; omega
  | succ fuel ih =>
    intro rest u i values h0 hfuel hcols
    rcases pieces_cases 44 rest with rfl | ⟨hnil, hmem, hone⟩ | ⟨q, more, rfl, hq, hmore⟩
    · -- the end of the line
      rw [valuesLoop]
      dsimp only
      rw [pieces_nil, map_nil, addAll]
      simp
    · -- the last value
      rw [hone]
      have hi : i < rowCols - 1 := by omega
      by_cases hne : trim isSpace rest = []
      · have hbad := valuesLoop_empty fuel values (u := u) (z := []) (w := w)
          (trim_eq_nil_iff.mp hne) h0 (.inr rfl) (.inr hnil) hi
        simp [hbad, hne]
      have hnext : ∀ values', valuesLoop 44 rowCols (u ++ (rest ++ [0])) fuel
          (u.length + rest.length) (i + 1) values' = .ok w ↔ values' = w := by
        intro values'
        have hpos : 0 < rest.length := length_pos_iff.mpr hnil
        obtain ⟨k, rfl⟩ : ∃ k, fuel = k + 1 := ⟨fuel - 1, by omega⟩
        rw [valuesLoop]
        simp
      rw [valuesLoop_value hmem h0 (.inr rfl) hne hi, if_pos rfl]
      simp only [hnext, map_singleton, addAll, strAdd]
      simp [hne]
    · -- a value and a comma behind it
      rw [hmore]
      have h0q : 0 ∉ q := fun h => h0 (mem_append_left _ h)
      have h0more : 0 ∉ more := fun h =>
        h0 (mem_append_right _ (mem_cons_of_mem _ h))
      rw [count_append, count_cons_self] at hcols
      have hi : i < rowCols - 1 := by omega
      have hbuf : u ++ (q ++ 44 :: more ++ [0]) = u ++ (q ++ 44 :: (more ++ [0])) := by simp
      rw [hbuf]
      by_cases hne : trim isSpace q = []
      · have hbad := valuesLoop_empty fuel values (u := u) (z := more ++ [0])
          (w := w) (trim_eq_nil_iff.mp hne) h0q (.inl rfl) (.inl (by decide)) hi
        simp [hbad, hne]
      have hcount : q.count 44 = 0 := count_eq_zero.mpr hq
      have hbuf' : u ++ (q ++ 44 :: (more ++ [0])) = (u ++ (q ++ [44])) ++ (more ++ [0]) := by
        simp
      have hpos : u.length + q.length + 1 = (u ++ (q ++ [44])).length := by
        simp only [length_append, length_singleton]
        omega
      have hless : more.length < fuel := by
        simp only [length_append, length_cons] at hfuel
        omega
      rw [valuesLoop_value hq h0q (.inl rfl) hne hi, if_neg (by decide), hbuf', hpos]
      simp only [ih more _ _ _ h0more hless (by omega : rowCols = i + 1 + 2 + more.count 44), mem_cons, forall_eq_or_imp, map_cons, addAll, Option.bind_eq_some_iff]
      constructor
      · rintro ⟨hlen, values', hadd, hall, hrest⟩
        exact ⟨⟨⟨hne, hlen⟩, hall⟩, values', hadd, hrest⟩
      · rintro ⟨⟨⟨-, hlen⟩, hall⟩, values', hadd, hrest⟩
        exact ⟨hlen, values', hadd, hall, hrest⟩

end Values

/-! ## The whole line -/

/-- The bytes that the values take from the vector. -/
def valuesNeed (line : List UInt8) : Nat :=
  need ((pieces 44 ((line.dropWhile (· != 58)).drop 1)).map fun q => (trim isSpace q).length + 1)

/-- What `ci_parse_key_mvalues` can take of a line with a key: no empty key or value, none that is
too long for the array, not more than 256 columns and no more values than the vector holds. -/
structure Storable (line : List UInt8) : Prop where
  full : FullRow isSpace line
  keyLength : (trim isSpace (line.takeWhile (· != 58))).length ≤ 32767
  valueLength : ∀ q ∈ pieces 44 ((line.dropWhile (· != 58)).drop 1),
    (trim isSpace q).length ≤ 32767
  columns : ((line.dropWhile (· != 58)).drop 1).count 44 ≤ 254
  room : valuesNeed line ≤ 65368

/-- The key and the values in the result of the parser. -/
def viewRow (r : List UInt8 × Option CVector) : List UInt8 × Option (List (List UInt8)) :=
  (r.1, r.2.map CVector.strings)

section Vector

variable {m : Malloc} {v w : CVector} {strs : List (List UInt8)} (hv : create m 65535 = some v)
include hv

/-- The vector of 65535 bytes takes values of up to 65368 bytes. -/
theorem addAll_isSome_iff (values : List (List UInt8)) :
    (∃ w, v.addAll values = some w) ↔ need (values.map length) ≤ 65368 := by
  obtain ⟨hl, -, -, halign, halloc⟩ := create_eq hv
  constructor
  · rintro ⟨w, hw⟩
    cases values with
    | nil => exact Nat.zero_le _
    | cons value values =>
      obtain ⟨-, hneed⟩ := need_of_addAll hl.ends halign hw
      rw [halloc] at hneed
      exact hneed
  · intro hneed
    exact addAll_of_need hl.ends halign _ (by rw [halloc]; decide) (by rw [halloc]; exact hneed)

end Vector

section Line

variable {m : Malloc} {line : List UInt8}

theorem key_copy {text z : List UInt8} {c : UInt8} (hne : trim isSpace text ≠ []) :
    ∃ e, backward isSpace (text ++ c :: z) text.length = some e ∧
      e - forward isSpace (text ++ c :: z) 0 = (trim isSpace text).length ∧
      ((text ++ c :: z).drop (forward isSpace (text ++ c :: z) 0)).take
        (trim isSpace text).length = trim isSpace text := by
  obtain ⟨lead, trail, htext, hfwd, hbwd, -⟩ := key_bounds (c := c) (z := z) hne
  have hbuf : text ++ c :: z = lead ++ (trim isSpace text ++ (trail ++ c :: z)) := by
    nth_rewrite 1 [htext]
    simp
  refine ⟨_, hbwd, by omega, ?_⟩
  rw [hfwd]
  nth_rewrite 1 [hbuf]
  rw [drop_left, take_left]

/-- Behind the tests for comments and blank lines. -/
theorem first_not (h0 : 0 ∉ line) (hno : ¬ noRow isSpace line = true) :
    byteAt (line ++ [0]) (forward isSpace (line ++ [0]) 0) ≠ 35 ∧
      byteAt (line ++ [0]) (forward isSpace (line ++ [0]) 0) ≠ 0 := by
  rw [noRow_iff h0, not_or] at hno
  rw [byteAt_forward (by rfl)]
  exact hno

/-- Without a key the pointer leaves the line at its front. -/
theorem parseKeyMvalues_no_key (h0 : 0 ∉ line) (hno : ¬ noRow isSpace line = true)
    (hkey : trim isSpace (line.takeWhile (· != 58)) = [])
    (r : Option (List UInt8 × Option CVector)) :
    parseKeyMvalues m 58 44 (line ++ [0]) ≠ .ok r := by
  have hfirst := first_not h0 hno
  by_cases hcolon : 58 ∈ line
  · obtain ⟨text, rest, rfl, htext, htake, hdrop⟩ := exists_colon hcolon
    rw [htake, trim_eq_nil_iff] at hkey
    have hbuf : text ++ 58 :: rest ++ [0] = text ++ 58 :: (rest ++ [0]) := by simp
    rw [hbuf] at hfirst ⊢
    -- both pointers are at the colon
    have hs : forward isSpace (text ++ 58 :: (rest ++ [0])) 0 = text.length := by
      have hrun := forward_run (u := []) (z := rest ++ [0]) hkey (by rfl : isSpace 58 = false)
      simpa using hrun
    have hchr : strchr (text ++ 58 :: (rest ++ [0])) text.length 58 = some text.length := by
      have h := strchr_stop (u := text) (q := []) (c := 58) (z := rest ++ [0]) (by simp) (by simp) (.inl rfl)
      simpa using h
    have hback : backward isSpace (text ++ 58 :: (rest ++ [0])) text.length = none := by
      have hrun := backward_run (u := []) (z := 58 :: (rest ++ [0])) hkey
      rw [nil_append, length_nil, Nat.zero_add] at hrun
      rw [hrun]
      rfl
    rw [hs] at hfirst
    unfold parseKeyMvalues
    dsimp only
    rw [hs, if_neg hfirst.1, if_neg hfirst.2, hchr, Option.getD_some, hback]
    split_ifs <;> simp
  · -- the line is blank
    rw [takeWhile_of_no_colon hcolon, trim_eq_nil_iff] at hkey
    refine absurd ?_ hno
    unfold noRow
    rw [dropWhile_eq_nil_iff.mpr hkey]

theorem parseKeyMvalues_colon {text rest : List UInt8} (htext : 58 ∉ text) (h0text : 0 ∉ text)
    (h0rest : 0 ∉ rest) (hno : ¬ noRow isSpace (text ++ 58 :: rest) = true)
    (hkey : trim isSpace text ≠ []) :
    (∃ r, parseKeyMvalues m 58 44 (text ++ 58 :: rest ++ [0]) = .ok r ∧
      r.map viewRow = some (trim isSpace text, some ((pieces 44 rest).map (trim isSpace)))) ↔
    (trim isSpace text).length ≤ 32767 ∧ rest.count 44 ≤ 254 ∧
      (∀ q ∈ pieces 44 rest, trim isSpace q ≠ [] ∧ (trim isSpace q).length ≤ 32767) ∧
      need ((pieces 44 rest).map fun q => (trim isSpace q).length + 1) ≤ 65368 := by
  have h0 : 0 ∉ text ++ 58 :: rest := by
    simp [h0text, h0rest]
  have hfirst := first_not h0 hno
  have hbuf : text ++ 58 :: rest ++ [0] = text ++ 58 :: (rest ++ [0]) := by simp
  rw [hbuf] at hfirst ⊢
  obtain ⟨e, hback, hsize, hcopy⟩ := key_copy (c := 58) (z := rest ++ [0]) hkey
  obtain ⟨values, hvalues⟩ := create_isSome m 65535 (by decide) (by decide)
  have hloop : ∀ w, valuesLoop 44 (2 + rest.count 44) (text ++ 58 :: (rest ++ [0]))
      (text ++ 58 :: (rest ++ [0])).length (text.length + 1) 0 values = .ok w ↔
      (∀ q ∈ pieces 44 rest, trim isSpace q ≠ [] ∧ (trim isSpace q).length ≤ 32767) ∧
        values.addAll ((pieces 44 rest).map fun q => trim isSpace q ++ [0]) = some w := by
    intro w
    have hpre : text.length + 1 = (text ++ [58]).length := by simp
    have happ : text ++ 58 :: (rest ++ [0]) = (text ++ [58]) ++ (rest ++ [0]) := by simp
    rw [hpre, happ]
    refine valuesLoop_ok_iff _ rest (text ++ [58]) 0 values h0rest ?_ (by omega)
    simp only [length_append, length_singleton]
    omega
  have hlens : ((pieces 44 rest).map fun q => trim isSpace q ++ [0]).map length =
      (pieces 44 rest).map fun q => (trim isSpace q).length + 1 := by
    simp
  have hroom := addAll_isSome_iff hvalues ((pieces 44 rest).map fun q => trim isSpace q ++ [0])
  rw [hlens] at hroom
  unfold parseKeyMvalues
  dsimp only
  rw [if_neg hfirst.1, if_neg hfirst.2, strchr_key hkey (.inl rfl) htext h0text, if_pos rfl, keyColumns,
    countChr_colon h0rest, Option.getD_some, hback]
  dsimp only
  rw [hsize, hcopy, hvalues, if_neg (by omega : ¬ 2 + rest.count 44 ≤ 1)]
  dsimp only
  constructor
  · rintro ⟨r, hr, -⟩
    split_ifs at hr with hcols hlen
    cases hres : valuesLoop 44 (2 + rest.count 44) (text ++ 58 :: (rest ++ [0]))
        (text ++ 58 :: (rest ++ [0])).length (text.length + 1) 0 values with
    | fault | error code => rw [hres] at hr; cases hr
    | ok w =>
      obtain ⟨hall, hadd⟩ := (hloop w).mp hres
      exact ⟨by omega, by omega, hall, hroom.mp ⟨w, hadd⟩⟩
  · rintro ⟨hlen, hcols, hall, hneed⟩
    obtain ⟨w, hw⟩ := hroom.mpr hneed
    rw [if_neg (by omega), if_neg (by omega), (hloop w).mpr ⟨hall, hw⟩]
    refine ⟨_, rfl, ?_⟩
    have hstrs : w.strings = (pieces 44 rest).map (trim isSpace) := by
      refine (built_addAll (.create hvalues) (fun s hs => ?_)
        (by rw [map_map]; exact hw)).layout.regions.strings
      obtain ⟨q, hq, rfl⟩ := mem_map.mp hs
      exact fun h => h0rest (mem_of_mem_pieces hq (mem_of_mem_trim h))
    rw [Option.map_some, viewRow, Option.map_some, hstrs]

/-- **The parser of keys and values** on a line that is not skipped. -/
theorem parseKeyMvalues_iff (h0 : 0 ∉ line) (hno : ¬ noRow isSpace line = true) :
    (∃ r, parseKeyMvalues m 58 44 (line ++ [0]) = .ok r ∧ r.map viewRow = rowOf isSpace line) ↔
      Storable line := by
  by_cases hkey : trim isSpace (line.takeWhile (· != 58)) = []
  · constructor
    · rintro ⟨r, hr, -⟩
      exact absurd hr (parseKeyMvalues_no_key h0 hno hkey r)
    · intro hst
      exact absurd hkey hst.full.1
  unfold rowOf
  rw [if_neg hno]
  by_cases hcolon : 58 ∈ line
  · obtain ⟨text, rest, rfl, htext, htake, hdrop⟩ := exists_colon hcolon
    have h0text : 0 ∉ text := fun h => h0 (mem_append_left _ h)
    have h0rest : 0 ∉ rest := fun h => h0 (mem_append_right _ (mem_cons_of_mem _ h))
    rw [htake] at hkey
    rw [if_pos hcolon, htake, hdrop, parseKeyMvalues_colon htext h0text h0rest hno hkey]
    constructor
    · rintro ⟨hlen, hcols, hall, hneed⟩
      exact
        { full := ⟨by rwa [htake], fun q hq => (hall q (by rwa [hdrop] at hq)).1⟩
          keyLength := by rwa [htake]
          valueLength := fun q hq => (hall q (by rwa [hdrop] at hq)).2
          columns := by rwa [hdrop]
          room := by rwa [valuesNeed, hdrop] }
    · rintro ⟨⟨-, hne⟩, hlen, hvals, hcols, hneed⟩
      rw [hdrop] at hne hvals hcols
      rw [htake] at hlen
      rw [valuesNeed, hdrop] at hneed
      exact ⟨hlen, hcols, fun q hq => ⟨hne q hq, hvals q hq⟩, hneed⟩
  · have hdrop : (line.dropWhile (· != 58)).drop 1 = [] := by
      have hall : ∀ b ∈ line, (b != 58) = true := fun b hb =>
        bne_iff_ne.mpr fun h => hcolon (h ▸ hb)
      rw [dropWhile_eq_nil_iff.mpr hall]
      rfl
    have htake := takeWhile_of_no_colon hcolon
    rw [htake] at hkey
    have hchr := strchr_key (z := []) hkey (.inr rfl) hcolon h0
    rw [if_neg (by decide)] at hchr
    have hend := strEnd_key hkey h0
    obtain ⟨e, hback, hsize, hcopy⟩ := key_copy (c := 0) (z := []) hkey
    have hfirst := first_not h0 hno
    have hiff : Storable line ↔ (trim isSpace line).length ≤ 32767 := by
      constructor
      · intro hst
        have hlen := hst.keyLength
        rwa [htake] at hlen
      · intro hlen
        exact
          { full := ⟨by rwa [htake], fun q hq => by rw [hdrop] at hq; cases hq⟩
            keyLength := by rwa [htake]
            valueLength := fun q hq => by rw [hdrop] at hq; cases hq
            columns := by rw [hdrop]; exact Nat.zero_le _
            room := by rw [valuesNeed, hdrop]; exact Nat.zero_le _ }
    rw [hiff, if_neg hcolon, htake]
    unfold parseKeyMvalues
    dsimp only
    rw [if_neg hfirst.1, if_neg hfirst.2, hchr, keyColumns, if_neg (by decide), Option.getD_none,
      hend, hback]
    dsimp only
    rw [hsize, hcopy, if_pos (le_refl 1)]
    constructor
    · rintro ⟨r, hr, -⟩
      split_ifs at hr with hlen
      omega
    · intro hlen
      rw [if_neg (by omega)]
      exact ⟨_, rfl, rfl⟩

end Line

/-! ## The two parsers -/

/-- The row parser of the tables and the parser of keys and values both accept the line, and both
find in it the trimmed text before the first colon and the trimmed pieces between the commas. -/
def ParsersAgree (m : Malloc) (line : List UInt8) : Prop :=
  parseRow some some tableCols (line ++ [0]) = .ok ((rowOf isSpace line).map entryOf) ∧
    ∃ r, parseKeyMvalues m 58 44 (line ++ [0]) = .ok r ∧ r.map viewRow = rowOf isSpace line

/-- No carriage return, form feed or vertical tab at the ends of a text. -/
def Plain (text : List UInt8) : Prop := trim isBlank text = trim isSpace text

/-- A comment or blank line after blanks and tabs only, or a line whose key and values have only
blanks and tabs around them and fit what they are copied to. -/
def SimpleLine (line : List UInt8) : Prop :=
  if noRow isSpace line then noRow isBlank line = true
  else Storable line ∧ Plain (line.takeWhile (· != 58)) ∧
    ∀ q ∈ pieces 44 ((line.dropWhile (· != 58)).drop 1), Plain q

section Agree

variable {line : List UInt8}

theorem isSpace_of_isBlank {b : UInt8} (h : isBlank b = true) : isSpace b = true := by
  unfold isSpace
  rcases Bool.or_eq_true_iff.mp h with h | h <;> simp [h]

/-- What is blank or a comment after blanks is so after white space. -/
theorem noRow_isSpace (h : noRow isBlank line = true) : noRow isSpace line = true := by
  induction line with
  | nil => rfl
  | cons b line ih =>
    unfold noRow at h ⊢
    by_cases hb : isBlank b = true
    · rw [dropWhile_cons_of_pos hb] at h
      rw [dropWhile_cons_of_pos (isSpace_of_isBlank hb)]
      exact ih h
    · rw [dropWhile_cons_of_neg hb] at h
      have hcomment : b = 35 := by simpa using h
      rw [hcomment]
      rfl

theorem FullRow.isBlank (h : FullRow isSpace line) : FullRow isBlank line := by
  have hmono : ∀ text, trim CText.isBlank text = [] → trim isSpace text = [] := by
    intro text htext
    rw [trim_eq_nil_iff] at htext ⊢
    exact fun b hb => isSpace_of_isBlank (htext b hb)
  exact ⟨fun hnil => h.1 (hmono _ hnil), fun q hq hnil => h.2 q hq (hmono _ hnil)⟩

/-- The row parser skips only lines that are blank or comments after blanks. -/
theorem noRow_of_parseRow (h0 : 0 ∉ line)
    (h : parseRow (some : List UInt8 → _) (some : List UInt8 → _) tableCols (line ++ [0]) =
      .ok none) : noRow isBlank line = true := by
  rw [noRow_iff h0, ← byteAt_forward (by rfl)]
  by_contra hnot
  rw [not_or] at hnot
  unfold parseRow at h
  dsimp only at h
  rw [if_neg hnot.1, if_neg hnot.2] at h
  -- behind the two tests an entry is made, or none of the outcomes is a success
  split at h
  · cases h
  · split_ifs at h
    · split at h <;> cases h
    · cases h

theorem rowOf_eq_iff (hno : ¬ noRow isSpace line = true) :
    rowOf isBlank line = rowOf isSpace line ↔ Plain (line.takeWhile (· != 58)) ∧
      ∀ q ∈ pieces 44 ((line.dropWhile (· != 58)).drop 1), Plain q := by
  have hnob : ¬ noRow isBlank line = true := fun h => hno (noRow_isSpace h)
  unfold rowOf
  rw [if_neg hno, if_neg hnob, Option.some.injEq, Prod.mk.injEq]
  refine and_congr Iff.rfl ?_
  by_cases hcolon : 58 ∈ line
  · rw [if_pos hcolon, if_pos hcolon, Option.some.injEq, map_inj_left]
    exact Iff.rfl
  · have hall : ∀ b ∈ line, (b != 58) = true := fun b hb =>
      bne_iff_ne.mpr fun h => hcolon (h ▸ hb)
    rw [if_neg hcolon, if_neg hcolon, dropWhile_eq_nil_iff.mpr hall]
    simp

theorem entryOf_injective : Function.Injective entryOf := by
  rintro ⟨k, vs⟩ ⟨k', vs'⟩ h
  rw [TextTableEntry.mk.injEq] at h
  have hvals : vs = vs' :=
    Option.map_injective (map_injective_iff.mpr (Option.some_injective _)) h.2
  exact Prod.ext h.1 hvals

end Agree

/-- **Two parsers of one line.** The parsers agree on a text line, with its key and its values,
exactly if the line is simple. -/
theorem parsers_agree_iff (m : Malloc) {line : List UInt8} (h0 : 0 ∉ line) :
    ParsersAgree m line ↔ SimpleLine line := by
  unfold ParsersAgree SimpleLine
  by_cases hno : noRow isSpace line = true
  · have hrow : rowOf isSpace line = none := if_pos hno
    rw [if_pos hno, hrow]
    constructor
    · rintro ⟨hparse, -⟩
      exact noRow_of_parseRow h0 hparse
    · intro hblank
      refine ⟨?_, none, ?_, rfl⟩
      · rw [parseRow_spec h0 (.inl hblank), rowOf, if_pos hblank]
      · unfold parseKeyMvalues
        dsimp only
        rw [byteAt_forward (by rfl)]
        rcases (noRow_iff h0).mp hno with h | h
        · rw [if_pos h]
        · rw [h, if_neg (by decide), if_pos rfl]
  · rw [if_neg hno, parseKeyMvalues_iff h0 hno, and_comm]
    refine and_congr_right fun hst => ?_
    rw [parseRow_spec h0 (.inr hst.full.isBlank), ← rowOf_eq_iff hno, Outcome.ok.injEq,
      (Option.map_injective entryOf_injective).eq_iff]

theorem parsers_agree_sample : ParsersAgree zeroMalloc (bytes " key : a, b c") := by
  refine (parsers_agree_iff zeroMalloc (by decide)).mpr ?_
  exact ⟨⟨by unfold FullRow; decide, by decide, by decide, by decide, by decide⟩,
    by unfold Plain; decide, by unfold Plain; decide⟩

/-- An empty value is refused by one parser, and the other one takes the rest of the line for it.
Of a line that ends with a carriage return only one parser trims it, and without a key both
pointers leave the line. -/
theorem parsers_disagree : parseRow some some tableCols (bytes "a: ,b" ++ [0]) =
      .ok (some { key := bytes "a", vals := some [some (bytes ",b"), some (bytes "b")] }) ∧
    parseKeyMvalues zeroMalloc 58 44 (bytes "a: ,b" ++ [0]) = .error (-2) ∧
    parseRow some some tableCols (bytes "a\r" ++ [0]) =
      .ok (some { key := bytes "a\r", vals := none }) ∧
    parseKeyMvalues zeroMalloc 58 44 (bytes "a\r" ++ [0]) = .ok (some (bytes "a", none)) ∧
    parseRow (some : List UInt8 → _) (some : List UInt8 → _) tableCols (bytes ":b" ++ [0]) =
      .fault ∧
    parseKeyMvalues zeroMalloc 58 44 (bytes ":b" ++ [0]) = .fault ∧
    ¬ ParsersAgree zeroMalloc (bytes "a: ,b") := by
  have herr : parseKeyMvalues zeroMalloc 58 44 (bytes "a: ,b" ++ [0]) = .error (-2) := by
    decide +kernel
  refine ⟨by decide, herr, by decide, by decide +kernel, by decide, by decide +kernel, ?_⟩
  rintro ⟨-, r, hr, -⟩
  cases hr

end CIcap
