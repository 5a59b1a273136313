import CIcap.Auth.Basic

/-! # The base64 encoder

`ci_base64_encode` of `decode.c` and the round trip with the decoder. The lengths are `size_t`,
so `len - 3` and `outlen - 4` wrap below zero; the positions `i` and `k` are `int`. A read behind
the data and an `int` that overflows are `none`.
-/

namespace CIcap

open CText List

/-- Subtraction of the 64 bit `size_t`. -/
def sizeSub (a b : Nat) : Nat := (a + 2 ^ 64 - b) % 2 ^ 64

theorem sizeSub_of_le {a b : Nat} (hb : b ≤ a) (ha : a < 2 ^ 64) : sizeSub a b = a - b := by
  unfold sizeSub
  rw [Nat.sub_add_comm hb, Nat.add_mod_right, Nat.mod_eq_of_lt (by omega)]

theorem sizeSub_of_lt {a b : Nat} (hb : a < b) : sizeSub a b = a + 2 ^ 64 - b := by
  unfold sizeSub
  rw [Nat.mod_eq_of_lt (by omega)]

/-- `base64_set` at the low six bits of a number. -/
def base64Char (v : UInt8) : UInt8 :=
  (bytes "ABCDEFGHIJKLMNOPQRSTUVWXYZabcdefghijklmnopqrstuvwxyz0123456789+/").getD (v &&& 63).toNat 0

/-- `dobase64` -/
def dobase64 (b0 b1 b2 : UInt8) : List UInt8 :=
  [base64Char (b0 >>> 2), base64Char (b0 <<< 4 ||| b1 >>> 4), base64Char (b1 <<< 2 ||| b2 >>> 6),
    base64Char b2]

/-- The loop of `ci_base64_encode`: the position and the text reached. Every round reads three
bytes of the data, so their number is enough fuel. -/
def encodeLoop (data : List UInt8) (outlen : Nat) : Nat → Nat → List UInt8 →
    Option (Nat × List UInt8)
  | 0, _, _ => none
  | fuel + 1, i, out =>
    if i < sizeSub data.length 3 ∧ out.length < sizeSub outlen 4 then
      if 2 ^ 31 ≤ out.length + 4 then none
      else
        match data.drop i with
        | b0 :: b1 :: b2 :: _ => encodeLoop data outlen fuel (i + 3) (out ++ dobase64 b0 b1 b2)
        | _ => none
    else some (i, out)

/-- `ci_base64_encode`: the text without the zero that is written behind it. -/
def base64Encode (data : List UInt8) (outlen : Nat) : Option (List UInt8) :=
  (encodeLoop data outlen (data.length + 1) 0 []).bind fun (i, out) =>
    if out.length < sizeSub outlen 4 ∧ i < data.length then
      if 2 ^ 31 ≤ out.length + 4 then none
      else some (out ++ dobase64 (data.getD i 0) (data.getD (i + 1) 0) (data.getD (i + 2) 0))
    else some out

/-! ## Groups -/

/-- The text of data in groups of three bytes, the last one filled with zeros. -/
def base64Text : List UInt8 → List UInt8
  | b0 :: b1 :: b2 :: data => dobase64 b0 b1 b2 ++ base64Text data
  | [b0, b1] => dobase64 b0 b1 0
  | [b0] => dobase64 b0 0 0
  | [] => []

/-- Data filled with zeros to whole groups. -/
def padded : List UInt8 → List UInt8
  | b0 :: b1 :: b2 :: data => b0 :: b1 :: b2 :: padded data
  | [b0, b1] => [b0, b1, 0]
  | [b0] => [b0, 0, 0]
  | [] => []

theorem length_base64Text (data : List UInt8) :
    (base64Text data).length = 4 * ((data.length + 2) / 3) := by
  fun_induction base64Text data with
  | case1 b0 b1 b2 data ih =>
    simp only [length_append, length_cons, dobase64, length_nil]
    omega
  | case2 b0 b1 | case3 b0 => simp [dobase64]
  | case4 => rfl

theorem length_padded (data : List UInt8) : (padded data).length = 3 * ((data.length + 2) / 3) := by
  fun_induction padded data with
  | case1 b0 b1 b2 data ih =>
    simp only [length_cons]
    omega
  | case2 b0 b1 | case3 b0 => simp
  | case4 => rfl

theorem padded_eq_iff (data : List UInt8) : padded data = data ↔ 3 ∣ data.length := by
  constructor
  · intro h
    have hlen := length_padded data
    rw [h] at hlen
    omega
  · intro h
    fun_induction padded data with
    | case1 b0 b1 b2 data ih =>
      rw [ih (by simp only [length_cons] at h; omega)]
    | case2 b0 b1 | case3 b0 => simp at h
    | case4 => rfl

theorem base64Table_char (v : UInt8) : base64Table (base64Char v) = v &&& 63 := by
  have hall : ∀ n : Fin 256, base64Table (base64Char (UInt8.ofNat n)) = UInt8.ofNat n &&& 63 := by
    decide +kernel
  have hv := hall ⟨v.toNat, v.toNat_lt⟩
  rw [UInt8.ofNat_toNat] at hv
  exact hv

theorem join_first (b0 b1 : UInt8) :
    (b0 >>> 2 &&& 63) <<< 2 ||| ((b0 <<< 4 ||| b1 >>> 4) &&& 63) >>> 4 = b0 := by
  apply UInt8.eq_of_toBitVec_eq
  apply BitVec.eq_of_getLsbD_eq
  intro i hi
  interval_cases i <;> simp

theorem join_second (b0 b1 b2 : UInt8) :
    ((b0 <<< 4 ||| b1 >>> 4) &&& 63) <<< 4 ||| ((b1 <<< 2 ||| b2 >>> 6) &&& 63) >>> 2 = b1 := by
  apply UInt8.eq_of_toBitVec_eq
  apply BitVec.eq_of_getLsbD_eq
  intro i hi
  interval_cases i <;> simp

theorem join_third (b1 b2 : UInt8) :
    ((b1 <<< 2 ||| b2 >>> 6) &&& 63) <<< 6 ||| (b2 &&& 63) = b2 := by
  apply UInt8.eq_of_toBitVec_eq
  apply BitVec.eq_of_getLsbD_eq
  intro i hi
  interval_cases i <;> simp

/-- The decoder takes a group of characters back to its bytes. -/
theorem base64Value_dobase64 (b0 b1 b2 : UInt8) (str : List UInt8) :
    base64Value (dobase64 b0 b1 b2 ++ str) = b0 :: b1 :: b2 :: base64Value str := by
  have hle : ∀ v : UInt8, ¬ v &&& 63 > 63 := by
    intro v
    exact Nat.not_lt.mpr Nat.and_le_right
  have hgroup : base64Group (base64Char (b0 >>> 2)) (base64Char (b0 <<< 4 ||| b1 >>> 4))
      (base64Char (b1 <<< 2 ||| b2 >>> 6)) (base64Char b2) = true := by
    simp [base64Group, base64Table_char, hle]
  show base64Value (_ :: _ :: _ :: _ :: str) = _
  rw [base64Value, if_pos hgroup, base64Bytes]
  simp only [base64Table_char, join_first, join_second, join_third, cons_append, nil_append]

theorem base64Value_text (data : List UInt8) : base64Value (base64Text data) = padded data := by
  have hone : ∀ b0 b1 b2, base64Value (dobase64 b0 b1 b2) = [b0, b1, b2] := by
    intro b0 b1 b2
    have h := base64Value_dobase64 b0 b1 b2 []
    exact h
  fun_induction base64Text data with
  | case1 b0 b1 b2 data ih => rw [base64Value_dobase64, ih, padded]
  | case2 b0 b1 => exact hone b0 b1 0
  | case3 b0 => exact hone b0 0 0
  | case4 => rfl

/-- The decoder on the whole text, with room for it. -/
theorem base64Decode_text {data : List UInt8} {size : Nat}
    (hsize : 3 * ((data.length + 2) / 3) < size) :
    base64Decode (base64Text data) size = padded data := by
  rw [base64Decode_eq_take, base64Value_text, take_of_length_le]
  rw [length_padded]
  omega

/-! ## The loop -/

theorem drop_base64Text (data : List UInt8) (j : Nat) :
    (base64Text data).drop (4 * j) = base64Text (data.drop (3 * j)) := by
  induction j generalizing data with
  | zero => rfl
  | succ j ih =>
    rw [Nat.mul_succ, Nat.mul_succ, Nat.add_comm (4 * j), Nat.add_comm (3 * j), ← drop_drop,
      ← drop_drop]
    fun_cases base64Text data with
    | case1 b0 b1 b2 data => exact ih data
    | case2 b0 b1 | case3 b0 | case4 => exact ih []

theorem take_base64Text {data rest : List UInt8} {j : Nat} {b0 b1 b2 : UInt8}
    (h : data.drop (3 * j) = b0 :: b1 :: b2 :: rest) :
    (base64Text data).take (4 * (j + 1)) = (base64Text data).take (4 * j) ++ dobase64 b0 b1 b2 := by
  rw [Nat.mul_succ, take_add, drop_base64Text, h]
  rfl

section Encode

variable {data : List UInt8} {outlen : Nat}

/-- The rounds of the loop: as many as there are groups but the last one, and as many as the
output takes. -/
theorem encodeLoop_spec (outlen : Nat) (h3 : 3 ≤ data.length) (h64 : data.length < 2 ^ 64) (n : Nat)
    (hn : n = min ((data.length - 1) / 3) ((sizeSub outlen 4 + 3) / 4)) :
    ∀ (fuel j : Nat), j ≤ n → n < fuel + j → 4 * j < 2 ^ 31 →
      encodeLoop data outlen fuel (3 * j) ((base64Text data).take (4 * j)) =
        if 4 * n < 2 ^ 31 then some (3 * n, (base64Text data).take (4 * n)) else none := by
  have hlen : ∀ j ≤ n, ((base64Text data).take (4 * j)).length = 4 * j := by
    intro j hj
    rw [length_take, length_base64Text]
    omega
  intro fuel
  induction fuel with
  | zero => intro j hj hfuel; omega
  | succ fuel ih =>
    intro j hj hfuel hint
    rw [encodeLoop, sizeSub_of_le h3 h64, hlen j hj]
    by_cases hend : j = n
    · rw [if_neg (by omega), if_pos (by omega), hend]
    rw [if_pos (by omega)]
    by_cases hover : 2 ^ 31 ≤ 4 * j + 4
    · rw [if_pos hover, if_neg (by omega)]
    rw [if_neg hover]
    obtain ⟨b0, b1, b2, rest, hdrop⟩ : ∃ b0 b1 b2 rest,
        data.drop (3 * j) = b0 :: b1 :: b2 :: rest := by
      have hl : 3 ≤ (data.drop (3 * j)).length := by
        rw [length_drop]
        omega
      match hd : data.drop (3 * j), hl with
      | b0 :: b1 :: b2 :: rest, _ => exact ⟨b0, b1, b2, rest, rfl⟩
    rw [hdrop]
    dsimp only
    rw [← take_base64Text hdrop]
    exact ih (j + 1) (by omega) (by omega) (by omega)

theorem last_group {m : Nat} (hm : m = (data.length - 1) / 3) (hne : data ≠ []) :
    dobase64 (data.getD (3 * m) 0) (data.getD (3 * m + 1) 0) (data.getD (3 * m + 2) 0) =
      base64Text (data.drop (3 * m)) := by
  have hpos : 0 < data.length := length_pos_iff.mpr hne
  have hget : ∀ k, data.getD (3 * m + k) 0 = (data.drop (3 * m)).getD k 0 := by
    intro k
    rw [getD_eq_getElem?_getD, getD_eq_getElem?_getD, getElem?_drop]
  have hlen : (data.drop (3 * m)).length = data.length - 3 * m := length_drop
  have hzero : data.getD (3 * m) 0 = (data.drop (3 * m)).getD 0 0 := hget 0
  rw [hzero, hget 1, hget 2]
  match hd : data.drop (3 * m) with
  | [b0] | [b0, b1] => rfl
  | [b0, b1, b2] => simp [base64Text]
  | [] | b0 :: b1 :: b2 :: b3 :: rest => rw [hd] at hlen; simp at hlen; omega

/-- **The encoder** on three bytes or more: it writes whole groups, as many as the output takes
with four bytes to spare. -/
theorem base64Encode_eq (h3 : 3 ≤ data.length) (h64 : data.length < 2 ^ 64) (g : Nat)
    (hg : g = min ((data.length + 2) / 3) ((sizeSub outlen 4 + 3) / 4)) :
    base64Encode data outlen =
      if 4 * g < 2 ^ 31 then some ((base64Text data).take (4 * g)) else none := by
  have hloop := encodeLoop_spec outlen h3 h64 _ rfl (data.length + 1) 0 (Nat.zero_le _)
    (by omega) (by omega)
  rw [take_zero] at hloop
  unfold base64Encode
  rw [hloop]
  generalize hn : min ((data.length - 1) / 3) ((sizeSub outlen 4 + 3) / 4) = n
  have hlen : ((base64Text data).take (4 * n)).length = 4 * n := by
    rw [length_take, length_base64Text]
    omega
  by_cases hint : 4 * n < 2 ^ 31
  · rw [if_pos hint, Option.bind_some]
    dsimp only
    rw [hlen]
    by_cases hroom : 4 * n < sizeSub outlen 4
    · -- the last group is written
      have hnm : n = (data.length - 1) / 3 := by omega
      have hgn : g = n + 1 := by omega
      have hne : data ≠ [] := ne_nil_of_length_pos (by omega)
      have htext : (base64Text data).take (4 * n) ++ base64Text (data.drop (3 * n)) =
          (base64Text data).take (4 * g) := by
        rw [← drop_base64Text, take_append_drop, take_of_length_le]
        rw [length_base64Text]
        omega
      rw [if_pos ⟨hroom, by omega⟩, last_group hnm hne, htext]
      by_cases hover : 2 ^ 31 ≤ 4 * n + 4
      · rw [if_pos hover, if_neg (by omega)]
      · rw [if_neg hover, if_pos (by omega)]
    · have hgn : g = n := by omega
      rw [if_neg (by omega), hgn, if_pos hint]
  · rw [if_neg hint, if_neg (by omega)]
    rfl

end Encode

/-! ## The round trip -/

/-- The decoder recovers the data from the text of the encoder, whenever the two buffers are
large enough. -/
def RoundTrips (data : List UInt8) : Prop :=
  ∀ outlen size : Nat, 4 * ((data.length + 2) / 3) < outlen → outlen < 2 ^ 64 →
    3 * ((data.length + 2) / 3) < size →
    ∃ text, base64Encode data outlen = some text ∧ base64Decode text size = data

/-- The encoder writes no more than `outlen` bytes, with the zero behind the text. -/
def WritesWithin (data : List UInt8) (outlen : Nat) : Prop :=
  ∃ text, base64Encode data outlen = some text ∧ text.length + 1 ≤ outlen

section Short

variable {data : List UInt8} {outlen : Nat}

/-- Less than three bytes: the loop is not kept from reading behind them. -/
theorem base64Encode_short (h : data.length < 3) (hroom : 0 < sizeSub outlen 4) :
    base64Encode data outlen = none := by
  have hloop : encodeLoop data outlen (data.length + 1) 0 [] = none := by
    rw [encodeLoop, if_pos ⟨by rw [sizeSub_of_lt h]; omega, hroom⟩]
    match data, h with
    | [], _ | [_], _ | [_, _], _ => rfl
  unfold base64Encode
  rw [hloop]
  rfl

/-- With four bytes of output only the zero is written. -/
theorem base64Encode_four : base64Encode data 4 = some [] := by
  have hzero : sizeSub 4 4 = 0 := by decide
  unfold base64Encode
  rw [encodeLoop, hzero, if_neg (by simp), Option.bind_some]
  dsimp only
  rw [if_neg (by simp)]

end Short

theorem roundTrips_iff {data : List UInt8} (hfit : 4 * ((data.length + 2) / 3) + 1 < 2 ^ 64) :
    RoundTrips data ↔ 3 ≤ data.length ∧ 3 ∣ data.length ∧ 4 * (data.length / 3) < 2 ^ 31 := by
  have hroom : ∀ outlen, 4 * ((data.length + 2) / 3) < outlen → outlen < 2 ^ 64 →
      3 ≤ data.length → (data.length + 2) / 3 =
        min ((data.length + 2) / 3) ((sizeSub outlen 4 + 3) / 4) := by
    intro outlen hout h64 h3
    rw [sizeSub_of_le (by omega) h64]
    omega
  constructor
  · intro hround
    obtain ⟨text, henc, hdec⟩ := hround (4 * ((data.length + 2) / 3) + 1)
      (3 * ((data.length + 2) / 3) + 1) (by omega) hfit (by omega)
    have h3 : 3 ≤ data.length := by
      by_contra hlt
      have hsub : 0 < sizeSub (4 * ((data.length + 2) / 3) + 1) 4 := by
        unfold sizeSub
        omega
      rw [base64Encode_short (by omega) hsub] at henc
      cases henc
    rw [base64Encode_eq h3 (by omega) _ (hroom _ (by omega) hfit h3)] at henc
    split_ifs at henc with hint
    cases henc
    rw [take_of_length_le (by rw [length_base64Text]), base64Decode_text (by omega),
      padded_eq_iff] at hdec
    exact ⟨h3, hdec, by omega⟩
  · rintro ⟨h3, hdvd, hint⟩ outlen size hout h64 hsize
    refine ⟨base64Text data, ?_, ?_⟩
    · rw [base64Encode_eq h3 (by omega) _ (hroom outlen hout h64 h3), if_pos (by omega),
        take_of_length_le (by rw [length_base64Text])]
    · rw [base64Decode_text hsize]
      exact (padded_eq_iff data).mpr hdvd

theorem writesWithin_iff {data : List UInt8} {outlen : Nat} (hout : outlen < 2 ^ 64)
    (hlen : data.length < 2 ^ 64) :
    WritesWithin data outlen ↔ 4 ≤ outlen ∧ (outlen = 4 ∨ 3 ≤ data.length) ∧
      4 * min ((data.length + 2) / 3) ((outlen - 1) / 4) < 2 ^ 31 := by
  by_cases hfour : outlen = 4
  · subst hfour
    have hwrites : WritesWithin data 4 := ⟨[], base64Encode_four, by simp⟩
    rw [iff_true_left hwrites]
    exact ⟨le_rfl, .inl rfl, by omega⟩
  rcases Nat.lt_or_ge data.length 3 with hshort | h3
  · have hsub : 0 < sizeSub outlen 4 := by
      unfold sizeSub
      omega
    simp only [WritesWithin, base64Encode_short hshort hsub]
    constructor
    · rintro ⟨_, hnone, _⟩
      cases hnone
    · rintro ⟨-, hfits, -⟩
      omega
  · -- whole groups are written: how many the wrapped `outlen - 4` allows
    have hgroups : ∀ g, g ≤ (data.length + 2) / 3 →
        ((base64Text data).take (4 * g)).length = 4 * g := by
      intro g hg
      rw [length_take, length_base64Text]
      omega
    unfold WritesWithin
    rw [base64Encode_eq h3 hlen _ rfl]
    constructor
    · rintro ⟨text, henc, hle⟩
      split_ifs at henc with hint
      cases henc
      rw [hgroups _ (by omega)] at hle
      have h4 : 4 ≤ outlen := by
        by_contra hlt
        rw [sizeSub_of_lt (by omega)] at hle
        omega
      rw [sizeSub_of_le h4 hout] at hint
      omega
    · rintro ⟨h4, -, hint⟩
      rw [sizeSub_of_le h4 hout, if_pos (by omega)]
      refine ⟨_, rfl, ?_⟩
      rw [hgroups _ (by omega)]
      omega

/-- **The base64 round trip.** Data come back from their text exactly if they are whole groups of
three bytes, at least one of them, and the positions of the text are numbers of an `int`. The
encoder stays within its buffer exactly if that has four bytes or more and, but for a buffer of
four, the data have three. -/
theorem base64_round_trip (data : List UInt8) (hfit : 4 * ((data.length + 2) / 3) + 1 < 2 ^ 64) :
    (RoundTrips data ↔
      3 ≤ data.length ∧ 3 ∣ data.length ∧ 4 * (data.length / 3) < 2 ^ 31) ∧
    ∀ outlen < 2 ^ 64, (WritesWithin data outlen ↔
      4 ≤ outlen ∧ (outlen = 4 ∨ 3 ≤ data.length) ∧
        4 * min ((data.length + 2) / 3) ((outlen - 1) / 4) < 2 ^ 31) :=
  ⟨roundTrips_iff hfit, fun _ hout => writesWithin_iff hout (by omega)⟩

theorem base64_round_trip_abc : RoundTrips (bytes "abc") ∧ WritesWithin (bytes "abc") 1024 :=
  have h := base64_round_trip (bytes "abc") (by decide)
  ⟨h.1.mpr (by decide), (h.2 1024 (by decide)).mpr (by decide)⟩

/-- Four bytes come back with two zeros behind them, of two bytes the encoder reads three, and
into three bytes of output it writes five. -/
theorem base64_round_trip_fails : (base64Encode (bytes "abcd") 1024).map (base64Decode · 1024) =
      some (bytes "abcd" ++ [0, 0]) ∧
    base64Encode (bytes "ab") 1024 = none ∧
    base64Encode (bytes "abc") 3 = some (bytes "YWJj") ∧
    ¬ RoundTrips (bytes "abcd") ∧ ¬ WritesWithin (bytes "abc") 3 := by
  refine ⟨by decide, by decide, by decide, ?_, ?_⟩
  · rw [roundTrips_iff (by decide)]
    decide
  · rw [writesWithin_iff (by decide) (by decide)]
    decide

end CIcap
