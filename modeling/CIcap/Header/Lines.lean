import CIcap.Request.Step

/-! # Heads

A head is a block of lines that an empty line closes. `findEoh`, the search for the empty line,
is repeated whenever more of the head has arrived; wherever the head is cut, it ends at the first
empty line (`EndsHead.window`). `ci_headers_unpack` reads back the lines of a head that has no
continuation lines (`unpack_linesText`).
-/

namespace CIcap

open CText List

/-! ## The end of a head -/

/-- An empty line stands at the offset `n`. -/
def EohAt (s : List UInt8) (n : Nat) : Prop := (s.drop n).take 4 = crlf ++ crlf

variable {s : List UInt8} {n : Nat} {b : UInt8} {ls : List (List UInt8)}

theorem EohAt.le (h : EohAt s n) : n + 4 ≤ s.length := by
  have hlen := congrArg length h
  simp only [length_take, length_drop, crlf, length_append, length_cons] at hlen
  omega

theorem eohAt_append_left {t : List UInt8} (h : n + 4 ≤ s.length) :
    EohAt (s ++ t) n ↔ EohAt s n := by
  unfold EohAt
  rw [drop_append_of_le_length (by omega), take_append_of_le_length (by rw [length_drop]; omega)]

theorem eohAt_append_right (x s : List UInt8) (n : Nat) :
    EohAt (x ++ s) (x.length + n) ↔ EohAt s n := by
  unfold EohAt
  rw [drop_append, drop_eq_nil_of_le (by omega), nil_append, Nat.add_sub_cancel_left]

theorem findEoh_eq_some_iff : findEoh s = some n ↔ EohAt s n ∧ ∀ j < n, ¬ EohAt s j := by
  induction s generalizing n with
  | nil => simp [findEoh, EohAt, crlf]
  | cons b s ih =>
    rw [findEoh]
    by_cases h0 : (b :: s).take 4 = crlf ++ crlf
    · rw [if_pos h0, Option.some.injEq]
      constructor
      · rintro rfl
        exact ⟨h0, fun j hj => absurd hj (Nat.not_lt_zero j)⟩
      · rintro ⟨-, hmin⟩
        by_contra hne
        exact hmin 0 (by omega) h0
    rw [if_neg h0, Option.map_eq_some_iff]
    constructor
    · rintro ⟨k, hk, rfl⟩
      obtain ⟨hat, hmin⟩ := ih.mp hk
      refine ⟨hat, fun j hj => ?_⟩
      cases j with
      | zero => exact h0
      | succ j => exact hmin j (by omega)
    · rintro ⟨hat, hmin⟩
      cases n with
      | zero => exact absurd hat h0
      | succ n => exact ⟨n, ih.mpr ⟨hat, fun j hj => hmin (j + 1) (by omega)⟩, rfl⟩

theorem findEoh_eq_none_iff : findEoh s = none ↔ ∀ n, ¬ EohAt s n := by
  induction s with
  | nil => simp [findEoh, EohAt, crlf]
  | cons b s ih =>
    rw [findEoh]
    by_cases h0 : (b :: s).take 4 = crlf ++ crlf
    · rw [if_pos h0]
      exact ⟨fun h => (by cases h), fun h => absurd h0 (h 0)⟩
    · rw [if_neg h0, Option.map_eq_none_iff, ih]
      refine ⟨fun h n => ?_, fun h n => h (n + 1)⟩
      cases n with
      | zero => exact h0
      | succ n => exact h n

/-- A block that ends with its first empty line. -/
def EndsHead (head : List UInt8) : Prop := findEoh head = some (head.length - 4)

theorem EndsHead.four_le {head : List UInt8} (h : EndsHead head) : 4 ≤ head.length := by
  have := (findEoh_eq_some_iff.mp h).1.le
  omega

/-- The search in a part `b` of a stream that begins with a head, where the part `x` of the head
before it has no byte of its end: the end is found when all of the head is there. -/
theorem EndsHead.window {head rest x b i : List UInt8} (h : EndsHead head)
    (hs : x ++ b ++ i = head ++ rest) (hx : x.length + 4 ≤ head.length) :
    (∀ j, findEoh b = some j → x.length + j + 4 = head.length) ∧
      (findEoh b = none → x.length + b.length < head.length) := by
  obtain ⟨hend, hmin⟩ := findEoh_eq_some_iff.mp h
  -- offsets in the part and in the head, compared in the stream
  have hb : ∀ n, n + 4 ≤ b.length → (EohAt (head ++ rest) (x.length + n) ↔ EohAt b n) := by
    intro n hn
    rw [← hs, append_assoc, eohAt_append_right, eohAt_append_left hn]
  have hh : ∀ n, n + 4 ≤ head.length → (EohAt (head ++ rest) n ↔ EohAt head n) :=
    fun n hn => eohAt_append_left hn
  have hlast : ∀ n, n + 4 ≤ b.length → x.length + n + 4 = head.length → EohAt b n := by
    intro n hn heq
    rw [← hb n hn, hh _ (by omega)]
    have hn' : x.length + n = head.length - 4 := by omega
    rw [hn']
    exact hend
  constructor
  · intro j hj
    obtain ⟨hat, hfirst⟩ := findEoh_eq_some_iff.mp hj
    have hle := hat.le
    by_contra hne
    rcases Nat.lt_or_gt_of_ne hne with hlt | hgt
    · refine hmin (x.length + j) (by omega) ?_
      rw [← hh _ (by omega), hb j hle]
      exact hat
    · exact hfirst (head.length - 4 - x.length) (by omega) (hlast _ (by omega) (by omega))
  · intro hnone
    by_contra hge
    exact findEoh_eq_none_iff.mp hnone (head.length - 4 - x.length) (hlast _ (by omega) (by omega))

/-! ## Heads in lines -/

/-- A byte that does not end a line. -/
def PlainByte (b : UInt8) : Prop := b ≠ 13 ∧ b ≠ 10 ∧ b ≠ 0

instance (b : UInt8) : Decidable (PlainByte b) := inferInstanceAs (Decidable (_ ∧ _ ∧ _))

/-- A line of a head: it is not empty, has no line end in it, and does not continue the line
before it. -/
structure TextLine (l : List UInt8) : Prop where
  ne : l ≠ []
  plain : ∀ b ∈ l, PlainByte b
  start : ∀ b ∈ l.head?, b ≠ 9 ∧ b ≠ 32

def linesText (ls : List (List UInt8)) : List UInt8 := ls.flatMap (· ++ crlf)

def headText (ls : List (List UInt8)) : List UInt8 := linesText ls ++ crlf

theorem linesText_cons (l : List UInt8) (ls : List (List UInt8)) :
    linesText (l :: ls) = l ++ crlf ++ linesText ls := rfl

theorem take_headText (ls : List (List UInt8)) :
    (headText ls).take ((headText ls).length - 2) = linesText ls := by
  unfold headText
  rw [length_append, crlf_length, Nat.add_sub_cancel, take_left]

theorem findEoh_cons (hb : b ≠ 13) (s : List UInt8) :
    findEoh (b :: s) = (findEoh s).map (· + 1) := by
  rw [findEoh, if_neg]
  intro h
  exact hb (cons.inj h).1

theorem findEoh_plain {l : List UInt8} (hl : ∀ b ∈ l, PlainByte b) (s : List UInt8) :
    findEoh (l ++ s) = (findEoh s).map (· + l.length) := by
  induction l with
  | nil => simp
  | cons b l ih =>
    rw [cons_append, findEoh_cons (hl b (by simp)).1, ih fun x hx => hl x (by simp [hx])]
    simp

theorem findEoh_crlf (hb : b ≠ 13) (s : List UInt8) :
    findEoh (crlf ++ b :: s) = (findEoh (b :: s)).map (· + 2) := by
  show findEoh (13 :: 10 :: b :: s) = _
  rw [findEoh, if_neg, findEoh_cons (by decide)]
  · simp [Function.comp_def]
  · intro h
    injection h with _ h
    injection h with _ h
    injection h with h _
    exact hb h

theorem endsHead_headText (hne : ls ≠ []) (hls : ∀ l ∈ ls, TextLine l) :
    EndsHead (headText ls) := by
  unfold EndsHead headText
  induction ls with
  | nil => exact absurd rfl hne
  | cons l ls ih =>
    have hl := hls l (by simp)
    rw [linesText_cons, append_assoc, append_assoc, findEoh_plain hl.plain]
    cases ls with
    | nil =>
      have hend : findEoh (crlf ++ (linesText [] ++ crlf)) = some 0 := by decide
      rw [hend]
      simp [linesText]
    | cons l' ls =>
      obtain ⟨b, t, ht⟩ := exists_cons_of_ne_nil (hls l' (by simp)).ne
      have hb : b ≠ 13 := ((hls l' (by simp)).plain b (by simp [ht])).1
      have hrest := ih (by simp) fun x hx => hls x (by simp [hx])
      have hshape : linesText (l' :: ls) ++ crlf = b :: (t ++ crlf ++ linesText ls ++ crlf) := by
        rw [linesText_cons, ht]
        simp
      rw [hshape] at hrest ⊢
      rw [findEoh_crlf hb, hrest]
      simp [crlf]
      omega

/-! ## Reading the lines back -/

/-- Lines with line ends between them. -/
def joinLines : List (List UInt8) → List UInt8
  | [] => []
  | [l] => l
  | l :: ls => l ++ crlf ++ joinLines ls

theorem linesText_eq_joinLines (hne : ls ≠ []) : linesText ls = joinLines ls ++ crlf := by
  induction ls with
  | nil => exact absurd rfl hne
  | cons l ls ih =>
    cases ls with
    | nil => simp [linesText, joinLines]
    | cons l' ls =>
      rw [linesText_cons, ih (by simp)]
      simp [joinLines]

theorem scanLines_cons (hb : PlainByte b) (line s : List UInt8) :
    Headers.scanLines line (b :: s) = Headers.scanLines (line ++ [b]) s := by
  have hclean : Headers.cleanByte b = b := if_neg hb.2.2
  rw [Headers.scanLines.eq_def]
  cases s with
  | nil =>
    dsimp only
    rw [if_neg hb.2.1, hclean]
    rfl
  | cons c s =>
    dsimp only
    rw [if_neg fun h => hb.1 h.1, if_neg fun h => hb.2.1 h.1, hclean]

theorem scanLines_plain {l : List UInt8} (hl : ∀ b ∈ l, PlainByte b) (line s : List UInt8) :
    Headers.scanLines line (l ++ s) = Headers.scanLines (line ++ l) s := by
  induction l generalizing line with
  | nil => simp
  | cons b l ih =>
    rw [cons_append, scanLines_cons (hl b (by simp)), ih fun x hx => hl x (by simp [hx])]
    simp

theorem scanLines_joinLines (hne : ls ≠ []) (hls : ∀ l ∈ ls, TextLine l) :
    Headers.scanLines [] (joinLines ls) = ls.map (⟨·, true⟩) := by
  induction ls with
  | nil => exact absurd rfl hne
  | cons l ls ih =>
    have hl := hls l (by simp)
    cases ls with
    | nil =>
      have hscan := scanLines_plain hl.plain [] []
      rw [append_nil] at hscan
      rw [joinLines, hscan]
      rfl
    | cons l' ls =>
      have hl' := hls l' (by simp)
      obtain ⟨d, t, ht⟩ := exists_cons_of_ne_nil hl'.ne
      have hd : d ≠ 9 ∧ d ≠ 32 := hl'.start d (by rw [ht]; rfl)
      obtain ⟨u, hu⟩ : ∃ u, joinLines (l' :: ls) = d :: u := by
        cases ls with
        | nil => exact ⟨t, ht⟩
        | cons l'' ls => exact ⟨_, by rw [joinLines, ht]; rfl; simp⟩
      have hrest := ih (by simp) fun x hx => hls x (by simp [hx])
      rw [hu, scanLines_cons (hl'.plain d (by simp [ht]))] at hrest
      have hjoin : joinLines (l :: l' :: ls) = l ++ (13 :: 10 :: d :: u) := by
        rw [joinLines, hu]
        · simp [crlf]
        · simp
      rw [hjoin, scanLines_plain hl.plain, Headers.scanLines, if_pos ⟨rfl, rfl, by simpa using hd.1, by simpa using hd.2⟩, map_cons, ← hrest]
      rfl

theorem joinLines_ends (hne : ls ≠ []) (hls : ∀ l ∈ ls, TextLine l) :
    ∃ s b, joinLines ls = s ++ [b] ∧ PlainByte b := by
  induction ls with
  | nil => exact absurd rfl hne
  | cons l ls ih =>
    cases ls with
    | nil =>
      have hl := hls l (by simp)
      refine ⟨l.dropLast, l.getLast hl.ne, (dropLast_append_getLast hl.ne).symm, ?_⟩
      exact hl.plain _ (getLast_mem hl.ne)
    | cons l' ls =>
      obtain ⟨s, b, hs, hb⟩ := ih (by simp) fun x hx => hls x (by simp [hx])
      refine ⟨l ++ crlf ++ s, b, ?_, hb⟩
      rw [joinLines, hs]
      all_goals simp

/-- Nothing is stripped from a block that does not end with a line end. -/
theorem stripEnd_append (hb : PlainByte b) : Headers.stripEnd (s ++ [b]) = s ++ [b] := by
  cases s with
  | nil => rfl
  | cons a s => simp [Headers.stripEnd, hb.1, hb.2.1]

/-- `ci_headers_unpack` reads the lines of a head. -/
theorem unpack_linesText (h : Headers) (hne : ls ≠ []) (hls : ∀ l ∈ ls, TextLine l) : ∃ size,
      h.unpack (linesText ls) = some { lines := ls.map (⟨·, true⟩), size := size } := by
  have htext := linesText_eq_joinLines hne
  obtain ⟨s, b, hs, hb⟩ := joinLines_ends hne hls
  have hlen : (linesText ls).length = (joinLines ls).length + 2 := by
    rw [htext]
    simp [crlf]
  have htwo : (linesText ls).length - 2 = (joinLines ls).length := by omega
  have hnil : linesText ls ≠ [] := by
    intro hn
    rw [hn, length_nil] at hlen
    omega
  have hlast : ((linesText ls).drop (joinLines ls).length).headD 0 = 13 := by
    rw [htext, drop_left]
    rfl
  have hlines : Headers.scanLines [] (Headers.stripEnd
      ((linesText ls).take (joinLines ls).length)) = ls.map (⟨·, true⟩) := by
    rw [htext, take_left, hs, stripEnd_append hb, ← hs, scanLines_joinLines hne hls]
  unfold Headers.unpack
  rw [if_neg hnil, if_neg (by omega), htwo, hlast, hlines]
  exact ⟨_, rfl⟩

end CIcap
