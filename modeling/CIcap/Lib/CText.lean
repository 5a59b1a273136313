import Mathlib.Data.List.Basic
import Mathlib.Data.Nat.Basic
import Mathlib.Tactic

/-! # Bytes and the C text routines

A block of memory is a `List UInt8`: the bytes from a pointer to the end of what the program
may read. The routines of the C library that scan text (`strtol`, `strchr`, …) are written
over such a block. A scan that would have to look at a byte past the end of the block returns
`none`: what stands there is not determined by the block.
-/

namespace CText

open List

/-- The bytes of a string of ASCII characters. -/
def bytes (s : String) : List UInt8 := s.toList.map (fun c => c.toNat.toUInt8)

/-- A property of the bytes of a block is tested byte by byte, not on all 256 bytes. -/
instance (priority := high) decidableForallMem {p : UInt8 → Prop} [DecidablePred p]
    (s : List UInt8) : Decidable (∀ b ∈ s, p b) := s.decidableBAll p

def crlf : List UInt8 := [13, 10]

@[simp] theorem crlf_length : crlf.length = 2 := rfl

/-- `isspace` in the C locale. -/
def isSpace (b : UInt8) : Bool :=
  b == 32 || b == 9 || b == 10 || b == 11 || b == 12 || b == 13

def isBlank (b : UInt8) : Bool := b == 32 || b == 9

/-- `0`–`9`, `a`–`z`, `A`–`Z` as a digit of base 36; `36` for any other byte. -/
def digitRaw (b : UInt8) : Nat :=
  if 48 ≤ b.toNat ∧ b.toNat ≤ 57 then b.toNat - 48
  else if 97 ≤ b.toNat ∧ b.toNat ≤ 122 then b.toNat - 87
  else if 65 ≤ b.toNat ∧ b.toNat ≤ 90 then b.toNat - 55
  else 36

/-- The value of a digit in a base up to 36, upper and lower case. -/
def digitVal (base : Nat) (b : UInt8) : Option Nat :=
  if digitRaw b < base then some (digitRaw b) else none

/-! ## C strings -/

/-- The C string at the start of a block: the bytes before the first zero. -/
def cstr (s : List UInt8) : List UInt8 := s.takeWhile (· ≠ 0)

/-- `tolower` in the C locale. -/
def lower (b : UInt8) : UInt8 := if 65 ≤ b ∧ b ≤ 90 then b + 32 else b

theorem cstr_take (s : List UInt8) (n : Nat) : cstr (s.take n) = (cstr s).take n := by
  induction s generalizing n with
  | nil => simp [cstr]
  | cons b s ih =>
    cases n with
    | zero => simp [cstr]
    | succ n =>
      by_cases hb : b = 0
      · simp [cstr, hb]
      · simpa [cstr, hb] using ih n

/-! ## Skipping -/

/-- Advance while `p` holds; `none` when the block ends first. -/
def skipWhile (p : UInt8 → Bool) : List UInt8 → Option (List UInt8)
  | [] => none
  | b :: bs => if p b then skipWhile p bs else some (b :: bs)

variable {p : UInt8 → Bool} {b : UInt8} {l s t : List UInt8} {base : Nat}

theorem skipWhile_cons_of_not (bs : List UInt8)
    (h : p b = false) : skipWhile p (b :: bs) = some (b :: bs) := by
  simp [skipWhile, h]

/-- The first `\r\n` of a block, as an offset. -/
def findCrlf : List UInt8 → Option Nat
  | [] => none
  | b :: bs => if b = 13 ∧ bs.head? = some 10 then some 0 else (findCrlf bs).map (· + 1)

section

variable (hl : (13 : UInt8) ∉ l)
include hl

/-- A part without `\r` does not hold the `\r\n` looked for. -/
theorem findCrlf_skip (s : List UInt8) : findCrlf (l ++ s) = (findCrlf s).map (· + l.length) := by
  induction l with
  | nil => simp
  | cons b bs ih =>
    have hb : b ≠ 13 := fun h => hl (by simp [h])
    have hbs : (13 : UInt8) ∉ bs := fun h => hl (by simp [h])
    rw [cons_append, findCrlf, if_neg (fun h => hb h.1), ih hbs, Option.map_map]
    rfl

theorem findCrlf_append (rest : List UInt8) : findCrlf (l ++ 13 :: 10 :: rest) = some l.length := by
  rw [findCrlf_skip hl]
  simp [findCrlf]

theorem findCrlf_eq_none : findCrlf l = none := by
  rw [← append_nil l, findCrlf_skip hl]
  rfl

theorem findCrlf_append_cr : findCrlf (l ++ [13]) = none := by
  rw [findCrlf_skip hl]
  rfl

end

/-! ## `strtol` -/

/-- The digits of a number: accumulated value, whether any digit was there, and the block
from the first byte that is no digit. -/
def takeDigits (base : Nat) : Nat → Bool → List UInt8 → Option (Nat × Bool × List UInt8)
  | _, _, [] => none
  | acc, any, b :: bs =>
    match digitVal base b with
    | some d => takeDigits base (acc * base + d) true bs
    | none => some (acc, any, b :: bs)

def takeSign : List UInt8 → Bool × List UInt8
  | 45 :: bs => (true, bs)
  | 43 :: bs => (false, bs)
  | bs => (false, bs)

/-- The optional `0x` in front of a base 16 number; it counts only before a digit. -/
def takeHexPrefix (base : Nat) (s : List UInt8) : List UInt8 :=
  if base = 16 ∧ s[0]? = some 48 ∧ (s[1]? = some 120 ∨ s[1]? = some 88)
      ∧ (s[2]?.bind (digitVal 16)).isSome then s.drop 2
  else s

/-- Clamping to the 64 bit `long`. -/
def clampLong (v : Int) : Int := max (-2 ^ 63) (min v (2 ^ 63 - 1))

/-- `strtol(s, &end, base)`: the value and the block at `end`. Without digits the value is
`0` and `end` is `s`. -/
def strtol (base : Nat) (s : List UInt8) : Option (Int × List UInt8) :=
  match skipWhile isSpace s with
  | none => none
  | some s₁ =>
    let (neg, s₂) := takeSign s₁
    -- the byte behind a `0x` decides whether it belongs to the number
    if base = 16 ∧ (s₂ = [48, 120] ∨ s₂ = [48, 88]) then none
    else
      match takeDigits base 0 false (takeHexPrefix base s₂) with
      | none => none
      | some (_, false, _) => some (0, s)
      | some (n, true, stop) => some (clampLong (if neg then -(n : Int) else n), stop)

/-- The value of a list of digits, most significant first. -/
def digitsValue (base : Nat) (ds : List UInt8) : Nat :=
  ds.foldl (fun acc b => acc * base + (digitVal base b).getD 0) 0

def AllDigits (base : Nat) (ds : List UInt8) : Prop := ∀ b ∈ ds, (digitVal base b).isSome

instance (base : Nat) (ds : List UInt8) : Decidable (AllDigits base ds) :=
  inferInstanceAs (Decidable (∀ b ∈ ds, (digitVal base b).isSome))

theorem takeDigits_append {ds : List UInt8} (hds : AllDigits base ds)
    (hb : digitVal base b = none) (rest : List UInt8) :
    ∀ (acc : Nat) (any : Bool), takeDigits base acc any (ds ++ b :: rest)
      = some (ds.foldl (fun acc b => acc * base + (digitVal base b).getD 0) acc,
          (any || !ds.isEmpty), b :: rest) := by
  induction ds with
  | nil => intro acc any; simp [takeDigits, hb]
  | cons d ds ih =>
    intro acc any
    obtain ⟨v, hv⟩ := Option.isSome_iff_exists.mp (hds d (by simp))
    have hds' : AllDigits base ds := fun x hx => hds x (by simp [hx])
    simp only [cons_append, takeDigits, hv, ih hds', foldl_cons, Option.getD_some,
      isEmpty_cons, Bool.not_false, Bool.or_true, Bool.true_or]

theorem digitVal_some_range (h : (digitVal base b).isSome) (hbase : base ≤ 36) :
    (48 ≤ b.toNat ∧ b.toNat ≤ 57) ∨ (97 ≤ b.toNat ∧ b.toNat ≤ 122) ∨
      (65 ≤ b.toNat ∧ b.toNat ≤ 90) := by
  by_contra hcon
  rw [not_or, not_or] at hcon
  have hraw : digitRaw b = 36 := by
    rw [digitRaw, if_neg hcon.1, if_neg hcon.2.1, if_neg hcon.2.2]
  rw [digitVal, if_neg (by omega)] at h
  simp at h

theorem not_space_of_digit (h : (digitVal base b).isSome)
    (hbase : base ≤ 36) : isSpace b = false ∧ b ≠ 45 ∧ b ≠ 43 ∧ b ≠ 13 := by
  have hr := digitVal_some_range h hbase
  have key : ∀ c : UInt8, c.toNat < 48 → b ≠ c := by
    intro c hc hbc
    subst hbc
    omega
  refine ⟨?_, key 45 (by decide), key 43 (by decide), key 13 (by decide)⟩
  simp only [isSpace, Bool.or_eq_false_iff, beq_eq_false_iff_ne]
  exact ⟨⟨⟨⟨⟨key 32 (by decide), key 9 (by decide)⟩, key 10 (by decide)⟩, key 11 (by decide)⟩,
    key 12 (by decide)⟩, key 13 (by decide)⟩

theorem takeSign_of_digit {d : UInt8} (hd : (digitVal base d).isSome)
    (hbase : base ≤ 36) (rest : List UInt8) : takeSign (d :: rest) = (false, d :: rest) := by
  obtain ⟨-, h45, h43, -⟩ := not_space_of_digit hd hbase
  unfold takeSign
  split
  · rename_i h; simp only [cons.injEq] at h; exact absurd h.1 h45
  · rename_i h; simp only [cons.injEq] at h; exact absurd h.1 h43
  · rfl

theorem digitVal_x (hbase : base ≤ 33) : digitVal base 120 = none ∧ digitVal base 88 = none := by
  have h120 : digitVal base 120 = if 33 < base then some 33 else none := rfl
  have h88 : digitVal base 88 = if 33 < base then some 33 else none := rfl
  rw [h120, h88, if_neg (by omega)]
  exact ⟨rfl, rfl⟩

/-- A number has no `x` in it, so there is no prefix to take off. -/
theorem takeHexPrefix_digits {d : UInt8} {ds : List UInt8}
    (hds : AllDigits base (d :: ds)) (hbase : base ≤ 33) (hb : b ≠ 120 ∧ b ≠ 88)
    (rest : List UInt8) :
    takeHexPrefix base (d :: ds ++ b :: rest) = d :: ds ++ b :: rest := by
  -- the second byte is a digit, or the byte `b` that ends the number
  have hx : ∀ x : UInt8, (d :: ds ++ b :: rest)[1]? = some x → x ≠ 120 ∧ x ≠ 88 := by
    intro x hx
    cases ds with
    | nil =>
      simp only [cons_append, nil_append, getElem?_cons_succ,
        getElem?_cons_zero, Option.some.injEq] at hx
      exact hx ▸ hb
    | cons e ds =>
      simp only [cons_append, getElem?_cons_succ, getElem?_cons_zero, Option.some.injEq] at hx
      subst hx
      have he := hds e (by simp)
      constructor
      · rintro rfl; rw [(digitVal_x hbase).1] at he; simp at he
      · rintro rfl; rw [(digitVal_x hbase).2] at he; simp at he
  rw [takeHexPrefix, if_neg]
  rintro ⟨-, -, h | h, -⟩
  · exact (hx _ h).1 rfl
  · exact (hx _ h).2 rfl

/-- `strtol` on the digits of a number that fits a `long`, up to a byte that is no digit. -/
theorem strtol_digits {base : Nat} {ds : List UInt8} (hne : ds ≠ []) (hds : AllDigits base ds)
    (hbase : base ≤ 33) {b : UInt8} (hb : digitVal base b = none) (hbx : b ≠ 120 ∧ b ≠ 88)
    (hv : digitsValue base ds < 2 ^ 63) (rest : List UInt8) :
    strtol base (ds ++ b :: rest) = some ((digitsValue base ds : Int), b :: rest) := by
  cases ds with
  | nil => exact absurd rfl hne
  | cons d ds =>
    have hd := hds d (by simp)
    have hsp := (not_space_of_digit hd (by omega)).1
    have hskip : skipWhile isSpace (d :: ds ++ b :: rest) = some (d :: ds ++ b :: rest) :=
      skipWhile_cons_of_not _ hsp
    have hsign : takeSign (d :: ds ++ b :: rest) = (false, d :: ds ++ b :: rest) :=
      takeSign_of_digit hd (by omega) _
    have hlong : ∀ x : UInt8, d :: ds ++ b :: rest = [48, x] → b = x := by
      intro x hx
      cases ds with
      | nil => simpa using (cons.inj (cons.inj hx).2).1
      | cons e es =>
        have hlen := congrArg length hx
        simp at hlen
    have hnot : ¬ (base = 16 ∧
        (d :: ds ++ b :: rest = [48, 120] ∨ d :: ds ++ b :: rest = [48, 88])) := by
      rintro ⟨-, hx | hx⟩
      · exact hbx.1 (hlong _ hx)
      · exact hbx.2 (hlong _ hx)
    simp only [strtol, hskip, hsign, if_neg hnot, takeHexPrefix_digits hds hbase hbx, takeDigits_append hds hb]
    have hclamp : clampLong (digitsValue base (d :: ds) : Int) = digitsValue base (d :: ds) := by
      unfold clampLong
      omega
    simpa [digitsValue] using hclamp

/-! ## Longer blocks

A routine that stops inside a block has not read what stands behind it. -/

theorem skipWhile_append (h : skipWhile p s = some t)
    (x : List UInt8) : skipWhile p (s ++ x) = some (t ++ x) := by
  induction s with
  | nil => cases h
  | cons b bs ih =>
    rw [skipWhile] at h
    rw [cons_append, skipWhile]
    split_ifs at h ⊢ with hb
    · exact ih h
    · cases h
      rfl

theorem skipWhile_ne_nil (h : skipWhile p s = some t) : t ≠ [] := by
  induction s with
  | nil => cases h
  | cons b bs ih =>
    rw [skipWhile] at h
    split_ifs at h
    · exact ih h
    · cases h
      exact cons_ne_nil b bs

theorem takeDigits_longer {acc n : Nat} {any any' : Bool}
    (h : takeDigits base acc any s = some (n, any', t)) (x : List UInt8) :
    takeDigits base acc any (s ++ x) = some (n, any', t ++ x) := by
  induction s generalizing acc any with
  | nil => cases h
  | cons b bs ih =>
    rw [takeDigits] at h
    rw [cons_append, takeDigits]
    split at h
    · exact ih h
    · cases h
      rfl

theorem takeSign_append (hs : s ≠ []) (x : List UInt8) :
    takeSign (s ++ x) = ((takeSign s).1, (takeSign s).2 ++ x) := by
  cases s with
  | nil => exact absurd rfl hs
  | cons b bs =>
    unfold takeSign
    split <;> split <;> simp_all

section

variable (hs : ¬ (base = 16 ∧ (s = [48, 120] ∨ s = [48, 88])))
include hs

theorem takeHexPrefix_append (hlen : 2 ≤ s.length) (x : List UInt8) :
    takeHexPrefix base (s ++ x) = takeHexPrefix base s ++ x := by
  rcases s with _ | ⟨a, _ | ⟨b, _ | ⟨c, s⟩⟩⟩
  · simp at hlen
  · simp at hlen
  · have hno : ∀ y : List UInt8, takeHexPrefix base (a :: b :: y) = a :: b :: y := by
      intro y
      unfold takeHexPrefix
      rw [if_neg]
      rintro ⟨hb, ha, hx, -⟩
      refine hs ⟨hb, ?_⟩
      simpa [Option.some.inj ha] using hx
    rw [hno, show [a, b] ++ x = a :: b :: x from rfl, hno]
  · unfold takeHexPrefix
    simp only [cons_append, getElem?_cons_zero, getElem?_cons_succ]
    split_ifs <;> rfl

/-- A block in which the digits end also decides about the `0x` in front of them. -/
theorem hexPrefix_decided (x : List UInt8)
    (hdig : takeDigits base 0 false (takeHexPrefix base s) ≠ none) :
    takeHexPrefix base (s ++ x) = takeHexPrefix base s ++ x ∧
      ¬ (base = 16 ∧ (s ++ x = [48, 120] ∨ s ++ x = [48, 88])) := by
  rcases s with _ | ⟨a, _ | ⟨b, s⟩⟩
  · exact absurd (by simp [takeHexPrefix, takeDigits]) hdig
  · -- a single byte is no digit
    have ha : base = 16 → a ≠ 48 := by
      rintro rfl rfl
      exact hdig rfl
    constructor
    · unfold takeHexPrefix
      rw [if_neg (by rintro ⟨hb, h48, -⟩; exact ha hb (Option.some.inj h48)),
        if_neg (by rintro ⟨hb, h48, -⟩; exact ha hb (Option.some.inj h48))]
    · rintro ⟨hb, hx | hx⟩ <;> exact ha hb (cons.inj hx).1
  · refine ⟨takeHexPrefix_append hs (by simp) x, ?_⟩
    have hfront : ∀ y : UInt8, a :: b :: s ++ x = [48, y] → a :: b :: s = [48, y] := by
      intro y hy
      have hnil : s = [] := (append_eq_nil_iff.mp (cons.inj (cons.inj hy).2).2).1
      subst hnil
      rw [(cons.inj hy).1, (cons.inj (cons.inj hy).2).1]
    rintro ⟨hb, hx⟩
    exact hs ⟨hb, hx.imp (hfront _) (hfront _)⟩

end

/-- `strtol` does not read behind the byte it stops at. -/
theorem strtol_append {stop : List UInt8} {v : Int} (h : strtol base s = some (v, stop))
    (x : List UInt8) : strtol base (s ++ x) = some (v, stop ++ x) := by
  unfold strtol at h ⊢
  cases hskip : skipWhile isSpace s with
  | none =>
    rw [hskip] at h
    cases h
  | some s₁ =>
    rw [hskip] at h
    rw [skipWhile_append hskip x]
    dsimp only at h ⊢
    rw [takeSign_append (skipWhile_ne_nil hskip)]
    generalize hsign : takeSign s₁ = sign at h
    obtain ⟨neg, s₂⟩ := sign
    by_cases hx : base = 16 ∧ (s₂ = [48, 120] ∨ s₂ = [48, 88])
    · rw [if_pos hx] at h
      cases h
    rw [if_neg hx] at h
    have hpre := hexPrefix_decided hx x fun hdig => by
      rw [hdig] at h
      cases h
    rw [if_neg hpre.2, hpre.1]
    cases hdig : takeDigits base 0 false (takeHexPrefix base s₂) with
    | none =>
      rw [hdig] at h
      cases h
    | some res =>
      obtain ⟨n, any, t⟩ := res
      rw [hdig] at h
      rw [takeDigits_longer hdig x]
      cases any with
      | false | true =>
        cases h
        rfl

/-! ## Lines

A line stops every routine: its carriage return is no blank and no digit, and white space is skipped to
the end of the line only when there is nothing else in it. -/

theorem skipWhile_suffix (h : skipWhile p s = some t) : t <:+ s := by
  induction s with
  | nil => cases h
  | cons b bs ih =>
    rw [skipWhile] at h
    split_ifs at h
    · exact (ih h).trans (suffix_cons b bs)
    · cases h
      exact suffix_rfl

theorem skipWhile_stops (h : ∃ b ∈ s, p b = false) : ∃ t, skipWhile p s = some t := by
  induction s with
  | nil =>
    obtain ⟨b, hb, -⟩ := h
    cases hb
  | cons b bs ih =>
    rw [skipWhile]
    split_ifs with hb
    · obtain ⟨c, hc, hpc⟩ := h
      rcases mem_cons.mp hc with rfl | hc
      · rw [hb] at hpc
        cases hpc
      · exact ih ⟨c, hc, hpc⟩
    · exact ⟨_, rfl⟩

/-- Skipping that the byte `e` stops, in front of such a byte. -/
theorem skipWhile_line {e : UInt8} (he : p e = false) (l rest : List UInt8) :
    ∃ t, skipWhile p (l ++ e :: rest) = some (t ++ e :: rest) ∧ t <:+ l := by
  induction l with
  | nil => exact ⟨[], skipWhile_cons_of_not rest he, suffix_rfl⟩
  | cons b bs ih =>
    rw [cons_append, skipWhile]
    split_ifs
    · obtain ⟨t, ht, hsuf⟩ := ih
      exact ⟨t, ht, hsuf.trans (suffix_cons b bs)⟩
    · exact ⟨b :: bs, rfl, suffix_rfl⟩

theorem takeDigits_line {e : UInt8} (he : digitVal base e = none) (l rest : List UInt8)
    (acc : Nat) (any : Bool) :
    ∃ n any' t, takeDigits base acc any (l ++ e :: rest) = some (n, any', t ++ e :: rest) ∧ t <:+ l := by
  induction l generalizing acc any with
  | nil =>
    refine ⟨acc, any, [], ?_, suffix_rfl⟩
    rw [nil_append, takeDigits, he]
  | cons b bs ih =>
    rw [cons_append, takeDigits]
    split
    · obtain ⟨n, any', t, ht, hsuf⟩ := ih _ true
      exact ⟨n, any', t, ht, hsuf.trans (suffix_cons b bs)⟩
    · exact ⟨acc, any, b :: bs, rfl, suffix_rfl⟩

theorem takeSign_suffix (s : List UInt8) : (takeSign s).2 <:+ s := by
  unfold takeSign
  split
  · exact suffix_cons _ _
  · exact suffix_cons _ _
  · exact suffix_rfl

/-- A `0x` is taken off in front of the carriage return. -/
theorem takeHexPrefix_line (base : Nat) (l : List UInt8) :
    ∃ t, takeHexPrefix base (l ++ [13]) = t ++ [13] ∧ t <:+ l := by
  unfold takeHexPrefix
  split_ifs with h
  · obtain ⟨-, h0, h1, -⟩ := h
    rcases l with _ | ⟨a, _ | ⟨b, l⟩⟩
    · simp at h0
    · simp at h1
    · exact ⟨l, rfl, (suffix_cons b l).trans (suffix_cons a _)⟩
  · exact ⟨l, rfl, suffix_rfl⟩

/-- `strtol` on a line that does not consist of white space stops inside the line. -/
theorem strtol_line {base : Nat} (hbase : base ≤ 36) {l : List UInt8} (hl : ∃ b ∈ l, isSpace b = false)
    (rest : List UInt8) :
    ∃ v t, strtol base (l ++ 13 :: rest) = some (v, t ++ 13 :: rest) ∧ t <:+ l := by
  suffices h : ∃ v t, strtol base (l ++ [13]) = some (v, t ++ [13]) ∧ t <:+ l by
    obtain ⟨v, t, hnum, hsuf⟩ := h
    exact ⟨v, t, by simpa using strtol_append hnum rest, hsuf⟩
  obtain ⟨s₁, hskip⟩ := skipWhile_stops hl
  have he : digitVal base 13 = none := by
    unfold digitVal
    rw [if_neg (by rw [show digitRaw 13 = 36 by decide]; omega)]
  obtain ⟨t, htx, hsuft⟩ := takeHexPrefix_line base (takeSign s₁).2
  obtain ⟨n, any, u, hdig, hsufu⟩ := takeDigits_line he t [] 0 false
  have hlast : ¬ (base = 16 ∧ ((takeSign s₁).2 ++ [13] = [48, 120] ∨ (takeSign s₁).2 ++ [13] = [48, 88])) := by
    rintro ⟨-, hx | hx⟩ <;>
      exact absurd (@append_inj_right' _ _ _ [48] _ hx rfl) (by decide)
  unfold strtol
  rw [skipWhile_append hskip]
  dsimp only
  rw [takeSign_append (skipWhile_ne_nil hskip), if_neg hlast, htx, hdig]
  cases any with
  | false => exact ⟨0, l, rfl, suffix_rfl⟩
  | true =>
    exact ⟨_, u, rfl, hsufu.trans (hsuft.trans ((takeSign_suffix s₁).trans (skipWhile_suffix hskip)))⟩

/-! ## Numbers as text -/

/-- The digit of a value below 16, lower case. -/
def digitByte (d : Nat) : UInt8 := if d < 10 then (48 + d).toUInt8 else (87 + d).toUInt8

/-- The digits of `n`, most significant first, in front of `acc`; `n` itself is enough fuel. -/
def natTextAux (base : Nat) : Nat → Nat → List UInt8 → List UInt8
  | 0, n, acc => digitByte (n % base) :: acc
  | fuel + 1, n, acc =>
    if n < base then digitByte n :: acc
    else natTextAux base fuel (n / base) (digitByte (n % base) :: acc)

/-- `n` as printed by `%x` (base 16) and `%d` (base 10). -/
def natText (base n : Nat) : List UInt8 := natTextAux base n n []

theorem digitVal_digitByte {d : Nat} (hd : d < base) (hbase : base ≤ 16) :
    digitVal base (digitByte d) = some d := by
  have key : ∀ e : Fin 16, digitVal 16 (digitByte e.val) = some e.val := by decide
  have h16 := key ⟨d, by omega⟩
  have hval : ∀ (b : UInt8) (v : Nat), digitVal 16 b = some v → v < base →
      digitVal base b = some v := by
    intro b v hb hv
    unfold digitVal at hb ⊢
    split at hb
    · simp only [Option.some.injEq] at hb
      rw [hb, if_pos hv]
    · simp at hb
  exact hval _ _ h16 hd

section

variable (hb2 : 2 ≤ base)
include hb2

section

variable (hbase : base ≤ 16)
include hbase

theorem natTextAux_spec : ∀ (fuel n : Nat) (acc : List UInt8), n ≤ fuel → AllDigits base acc →
      AllDigits base (natTextAux base fuel n acc) ∧ natTextAux base fuel n acc ≠ [] ∧
      digitsValue base (natTextAux base fuel n acc)
        = n * base ^ acc.length + digitsValue base acc := by
  have hcons : ∀ (d : Nat) (acc : List UInt8), d < base →
      digitsValue base (digitByte d :: acc) = d * base ^ acc.length + digitsValue base acc := by
    intro d acc hd
    have hgen : ∀ (l : List UInt8) (x : Nat),
        l.foldl (fun acc b => acc * base + (digitVal base b).getD 0) x = x * base ^ l.length
            + l.foldl (fun acc b => acc * base + (digitVal base b).getD 0) 0 := by
      intro l
      induction l with
      | nil => intro x; simp
      | cons b bs ih =>
        intro x
        rw [foldl_cons, foldl_cons, ih, ih (0 * base + _), length_cons]
        ring
    simp only [digitsValue, foldl_cons, digitVal_digitByte hd hbase, Option.getD_some]
    rw [hgen]
    ring
  have hall : ∀ (d : Nat) (acc : List UInt8), d < base → AllDigits base acc →
      AllDigits base (digitByte d :: acc) := by
    intro d acc hd hacc x hx
    rcases mem_cons.mp hx with rfl | hx
    · rw [digitVal_digitByte hd hbase]; rfl
    · exact hacc x hx
  intro fuel
  induction fuel with
  | zero =>
    intro n acc hn hacc
    obtain rfl : n = 0 := by omega
    have h0 : 0 % base < base := Nat.mod_lt _ (by omega)
    refine ⟨hall _ _ h0 hacc, by simp [natTextAux], ?_⟩
    rw [natTextAux, hcons _ _ h0]
    simp
  | succ fuel ih =>
    intro n acc hn hacc
    rw [natTextAux]
    by_cases hlt : n < base
    · rw [if_pos hlt]
      exact ⟨hall _ _ hlt hacc, by simp, hcons _ _ hlt⟩
    rw [if_neg hlt]
    have hmod : n % base < base := Nat.mod_lt _ (by omega)
    have hdiv : n / base ≤ fuel := by
      have : n / base < n := Nat.div_lt_self (by omega) (by omega)
      omega
    obtain ⟨h1, h2, h3⟩ := ih (n / base) (digitByte (n % base) :: acc) hdiv (hall _ _ hmod hacc)
    refine ⟨h1, h2, ?_⟩
    rw [h3, hcons _ _ hmod]
    have := Nat.div_add_mod n base
    calc n / base * (base ^ acc.length * base) + (n % base * base ^ acc.length
          + digitsValue base acc)
        = (base * (n / base) + n % base) * base ^ acc.length + digitsValue base acc := by ring
      _ = n * base ^ acc.length + digitsValue base acc := by rw [this]

theorem natText_allDigits (n : Nat) :
    AllDigits base (natText base n) :=
  (natTextAux_spec hb2 hbase n n [] le_rfl (by simp [AllDigits])).1

theorem natText_ne_nil (n : Nat) :
    natText base n ≠ [] :=
  (natTextAux_spec hb2 hbase n n [] le_rfl (by simp [AllDigits])).2.1

/-- The text of a number has the number as its value. -/
theorem digitsValue_natText (n : Nat) : digitsValue base (natText base n) = n := by
  have h := (natTextAux_spec hb2 hbase n n [] le_rfl (by simp [AllDigits])).2.2
  simpa [natText, digitsValue] using h

end

/-- A number below `base ^ k` has at most `k` digits. -/
theorem natText_length_le {n k : Nat} (hk : 0 < k)
    (hn : n < base ^ k) : (natText base n).length ≤ k := by
  have key : ∀ (fuel n k : Nat) (acc : List UInt8), 0 < k → n < base ^ k →
      (natTextAux base fuel n acc).length ≤ k + acc.length := by
    intro fuel
    induction fuel with
    | zero => intro n k acc hk _; simp [natTextAux]; omega
    | succ fuel ih =>
      intro n k acc hk hn
      rw [natTextAux]
      by_cases hlt : n < base
      · rw [if_pos hlt]; simp; omega
      rw [if_neg hlt]
      obtain ⟨j, rfl⟩ : ∃ j, k = j + 1 := ⟨k - 1, by omega⟩
      have hdiv : n / base < base ^ j := by
        rw [Nat.div_lt_iff_lt_mul (by omega), ← pow_succ]
        exact hn
      have hj : 0 < j := by
        by_contra hcon
        obtain rfl : j = 0 := by omega
        rw [pow_one] at hn
        exact hlt hn
      have h := ih (n / base) j (digitByte (n % base) :: acc) hj hdiv
      rw [length_cons] at h
      omega
  simpa [natText] using key n n k [] hk hn

end

example : natText 16 4064 = bytes "fe0" := by decide

end CText
