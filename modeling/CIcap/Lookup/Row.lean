import CIcap.Lib.CText
import CIcap.Lib.Scan
import CIcap.Lib.Segments

/-! # Rows of text tables

The loader of the text tables of `lookup_file_table.c`. A line `key:val1, val2, …` is taken apart
in the buffer it was read into: the ends of the key and of the values are found by pointers that
move back over blanks, and a zero is written behind each of them. A pointer that leaves the buffer
and an index behind the values are a `fault`.
-/

namespace CIcap

open CText Scan List

/-- `ci_type_ops_t`. `equal a b` stands for `compare(a, b) == 0`, `mem` are the bytes at the
address of an object. -/
structure TypeOps (α : Type) where
  dup : List UInt8 → Option α
  equal : α → α → Bool
  size : α → Nat
  mem : α → List UInt8

/-- `ci_str_ops` -/
def strOps : TypeOps (List UInt8) where
  dup := some
  equal := fun a b => a == b
  size := fun s => s.length + 1
  mem := fun s => s ++ [0]

/-- `ci_str_ext_ops`: the key `*` is equal to every key. -/
def strExtOps : TypeOps (List UInt8) where
  dup := some
  equal := fun a b => a == bytes "*" || a == b
  size := fun s => s.length + 1
  mem := fun s => s ++ [0]

/-- The return value of a parser, or a read or write outside of its buffers. -/
inductive Outcome (α : Type) where
  | fault
  | error (code : Int)
  | ok (a : α)
deriving DecidableEq, Repr

/-! ## Pointers into a line -/

def byteAt (buf : List UInt8) (i : Nat) : UInt8 := buf.getD i 0

/-- `strchr` -/
def strchr (buf : List UInt8) (i : Nat) (c : UInt8) : Option Nat :=
  let j := forward (fun b => b != c && b != 0) buf i
  if byteAt buf j = c then some j else none

/-- The position of the zero of a string. -/
def strEnd (buf : List UInt8) (i : Nat) : Nat := forward (· != 0) buf i

/-- How often `strchr` finds `c` when it is called again behind what it has found. -/
def countChr (buf : List UInt8) (i : Nat) (c : UInt8) : Nat := (cstr (buf.drop i)).count c

/-! ## The row parser -/

/-- `struct text_table_entry`; a value that could not be duplicated is a null pointer. -/
structure TextTableEntry (κ ν : Type) where
  key : κ
  vals : Option (List (Option ν))
deriving DecidableEq

section ReadRow

variable {κ ν : Type}

/-- The loop of `read_row` over the values. `vals` has `rowCols` places. -/
def readVals (valDup : List UInt8 → Option ν) (rowCols : Int) :
    Nat → List UInt8 → Nat → List (Option ν) → Outcome (List (Option ν))
  | 0, _, _, _ => .fault
  | fuel + 1, buf, s, vals =>
    match buf[s]? with
    | none => .fault
    | some b =>
      if b = 0 then
        if (vals.length : Int) < rowCols then .ok vals else .fault
      else if (vals.length : Int) ≥ rowCols then .error (-1)
      else
        let val := forward isBlank buf s
        let e := forward (fun b => b != 44 && b != 0) buf val
        let s := if byteAt buf e = 0 then e else e + 1
        match backward isBlank buf e with
        | none => .fault
        | some t =>
          let buf := buf.set t 0
          readVals valDup rowCols fuel buf s (vals ++ [valDup (cstr (buf.drop val))])

/-- The number of columns of a line. -/
def rowColumns (cols : Int) (buf : List UInt8) : Int :=
  if cols < 0 then
    match strchr buf 0 58 with
    | none => 1
    | some c => 2 + countChr buf c 44
  else cols

/-- `read_row` behind `fgets`: the entry of a line, none for a comment and a blank line. -/
def parseRow (keyDup : List UInt8 → Option κ) (valDup : List UInt8 → Option ν) (cols : Int)
    (buf : List UInt8) : Outcome (Option (TextTableEntry κ ν)) :=
  let val := forward isBlank buf 0
  if byteAt buf val = 35 then .ok none
  else if byteAt buf val = 0 then .ok none
  else
    let rowCols := rowColumns cols buf
    let e := ((if rowCols > 1 then strchr buf val 58 else none).getD (strEnd buf val))
    match backward isBlank buf e with
    | none => .fault
    | some t =>
      let buf := buf.set t 0
      match keyDup (cstr (buf.drop val)) with
      | none => .error (-1)
      | some key =>
        if rowCols > 1 then
          match readVals valDup rowCols buf.length buf (e + 1) [] with
          | .fault => .fault
          | .error code => .error code
          | .ok vals => .ok (some { key, vals := some vals })
        else .ok (some { key, vals := none })

/-- The `cols` of a table: no table sets it. -/
def tableCols : Int := -1

end ReadRow

/-! ## Lines that are in order -/

/-- A comment or a blank line, after the bytes that `p` skips. -/
def noRow (p : UInt8 → Bool) (line : List UInt8) : Bool :=
  match line.dropWhile p with
  | [] => true
  | b :: _ => b == 35

/-- The key and the values that a line holds, if it holds any: the trimmed text before the first
colon, and the trimmed pieces between commas behind it. -/
def rowOf (p : UInt8 → Bool) (line : List UInt8) :
    Option (List UInt8 × Option (List (List UInt8))) :=
  if noRow p line then none
  else some (trim p (line.takeWhile (· != 58)),
    if 58 ∈ line then
      some ((pieces 44 ((line.dropWhile (· != 58)).drop 1)).map (trim p))
    else none)

section Bounds

variable {p : UInt8 → Bool} {u q z : List UInt8} {c : UInt8}

theorem byteAt_append (u q z : List UInt8) (c : UInt8) :
    byteAt (u ++ (q ++ c :: z)) (u.length + q.length) = c := by
  rw [byteAt, ← append_assoc, ← length_append, getD_eq_getElem?_getD, Segments.getElem?_append]
  rfl

/-- **A value in the line.** The pointers find the trimmed piece. -/
theorem value_bounds (hq : 44 ∉ q) (h0 : 0 ∉ q) (hc : c = 44 ∨ c = 0) (hne : trim p q ≠ []) :
    ∃ lead trail, q = lead ++ (trim p q ++ trail) ∧
      forward p (u ++ (q ++ c :: z)) u.length = u.length + lead.length ∧
      forward (fun b => b != 44 && b != 0) (u ++ (q ++ c :: z)) (u.length + lead.length) =
        u.length + q.length ∧
      backward p (u ++ (q ++ c :: z)) (u.length + q.length) =
        some (u.length + (lead.length + (trim p q).length)) := by
  obtain ⟨lead, trail, hqe, hbounds⟩ := exists_bounds hne
  obtain ⟨hfwd, hbwd⟩ := hbounds u (c :: z)
  refine ⟨lead, trail, hqe, hfwd, ?_, hbwd⟩
  have hinside := forward_inside (r := fun b => b != 44 && b != 0) (u := u) (z := z) (c := c)
    lead (fun (b : UInt8) (hb : b ∈ trim p q ++ trail) => ?_)
    (by rcases hc with rfl | rfl <;> rfl)
  · rwa [← hqe] at hinside
  · have hmem : b ∈ q := by
      rw [hqe]
      exact mem_append_right _ hb
    rw [Bool.and_eq_true, bne_iff_ne, bne_iff_ne]
    exact ⟨fun h => hq (h ▸ hmem), fun h => h0 (h ▸ hmem)⟩

/-- The string that is left when a zero is written behind it. -/
theorem cstr_set (lead trail : List UInt8) {core : List UInt8} (h0 : 0 ∉ core) :
    cstr (((u ++ ((lead ++ (core ++ trail)) ++ c :: z)).set
      (u.length + (lead.length + core.length)) 0).drop (u.length + lead.length)) = core := by
  obtain ⟨d, rest, hd⟩ := exists_cons_of_ne_nil
    (append_ne_nil_of_right_ne_nil trail (cons_ne_nil c z))
  have hbuf : u ++ ((lead ++ (core ++ trail)) ++ c :: z) = (u ++ lead ++ core) ++ d :: rest := by
    rw [← hd]
    simp
  have hpos : u.length + (lead.length + core.length) = (u ++ lead ++ core).length := by
    simp only [length_append]
    omega
  rw [hbuf, hpos, Segments.set_append, append_assoc, ← length_append, drop_left,
    cstr, takeWhile_append_of_pos]
  · simp
  · intro b hb
    exact decide_eq_true fun h => h0 (h ▸ hb)

end Bounds

/-! ## The start and the key of a line -/

section Key

variable {p : UInt8 → Bool} {line : List UInt8}

variable {z text : List UInt8} {c : UInt8}

/-- `strchr` stops at the first byte `d` that is the one it looks for or the zero. -/
theorem strchr_stop {u q : List UInt8} {d : UInt8} (hq : c ∉ q) (h0 : 0 ∉ q) (hd : d = c ∨ d = 0) :
    strchr (u ++ (q ++ d :: z)) u.length c = if d = c then some (u.length + q.length) else none := by
  have hfwd : forward (fun b => b != c && b != 0) (u ++ (q ++ d :: z)) u.length =
      u.length + q.length := by
    refine forward_run (fun b hb => ?_) (by rcases hd with rfl | rfl <;> simp)
    rw [Bool.and_eq_true, bne_iff_ne, bne_iff_ne]
    exact ⟨fun h => hq (h ▸ hb), fun h => h0 (h ▸ hb)⟩
  unfold strchr
  dsimp only
  rw [hfwd, byteAt_append]

section

variable (hne : trim p text ≠ [])
include hne

/-- **The key of a line.** The pointers find the trimmed text, and from its start the end of the
text is found as from the start of the line. -/
theorem key_bounds : ∃ lead trail, text = lead ++ (trim p text ++ trail) ∧
      forward p (text ++ c :: z) 0 = lead.length ∧
      backward p (text ++ c :: z) text.length = some (lead.length + (trim p text).length) ∧
      ∀ r : UInt8 → Bool, (∀ b ∈ text, r b = true) → r c = false →
        forward r (text ++ c :: z) lead.length = text.length := by
  obtain ⟨lead, trail, htext, hbounds⟩ := exists_bounds hne
  obtain ⟨hfwd, hbwd⟩ := hbounds [] (c :: z)
  simp only [length_nil, Nat.zero_add] at hfwd hbwd
  refine ⟨lead, trail, htext, hfwd, hbwd, fun r hr hc => ?_⟩
  have hinside := forward_inside (u := []) (z := z) lead
    (fun b (hb : b ∈ trim p text ++ trail) => hr b (by rw [htext]; exact mem_append_right _ hb)) hc
  rw [← htext] at hinside
  simpa using hinside

theorem strchr_key {d : UInt8} (hd : d = 58 ∨ d = 0) (htext : 58 ∉ text) (h0 : 0 ∉ text) :
    strchr (text ++ d :: z) (forward p (text ++ d :: z) 0) 58 =
      if d = 58 then some text.length else none := by
  obtain ⟨lead, trail, heq, hfwd, -⟩ := key_bounds (c := d) (z := z) hne
  have hmem : ∀ b ∈ trim p text ++ trail, b ∈ text := fun b hb => by
    rw [heq]
    exact mem_append_right _ hb
  have hstop := strchr_stop (u := lead) (z := z) (fun h => htext (hmem _ h)) (fun h => h0 (hmem _ h)) hd
  rwa [← append_assoc lead, ← length_append, ← heq, ← hfwd] at hstop

theorem strEnd_key (h0 : 0 ∉ text) :
    strEnd (text ++ [0]) (forward p (text ++ [0]) 0) = text.length := by
  obtain ⟨lead, -, -, hfwd, -, hend⟩ := key_bounds (c := 0) (z := []) hne
  rw [hfwd]
  exact hend _ (fun b hb => bne_iff_ne.mpr fun h => h0 (h ▸ hb)) rfl

end

theorem countChr_colon {rest : List UInt8} (h0 : 0 ∉ rest) :
    countChr (text ++ 58 :: (rest ++ [0])) text.length 44 = rest.count 44 := by
  have hstring : cstr (58 :: (rest ++ [0])) = 58 :: rest := by
    rw [← cons_append, cstr, takeWhile_append_of_pos]
    · simp
    · intro b hb
      refine decide_eq_true fun h => ?_
      rcases mem_cons.mp hb with hb | hb
      · rw [h] at hb
        exact absurd hb (by decide)
      · exact h0 (h ▸ hb)
  rw [countChr, drop_left, hstring, count_cons_of_ne (by decide)]

/-- The first byte that is not skipped, or the zero behind the line. -/
theorem byteAt_forward (hp : p 0 = false) :
    byteAt (line ++ [0]) (forward p (line ++ [0]) 0) = (line.dropWhile p).headD 0 := by
  have hsplit : line ++ [0] = line.takeWhile p ++ (line.dropWhile p ++ [0]) := by
    rw [← append_assoc, takeWhile_append_dropWhile]
  have hfwd : forward p (line ++ [0]) 0 = (line.takeWhile p).length := by
    cases hd : line.dropWhile p with
    | nil =>
      have hall : ∀ x ∈ line, p x = true := dropWhile_eq_nil_iff.mp hd
      have hrun := forward_run (u := []) (z := []) hall hp
      rw [nil_append, length_nil, Nat.zero_add] at hrun
      rw [hrun, takeWhile_eq_self_iff.mpr hall]
    | cons b body =>
      have hb : p b = false := by
        have hnot := head?_dropWhile_not p line
        rw [hd] at hnot
        simpa using hnot
      have hrun := forward_run (u := []) (z := body ++ [0])
        (fun x hx => mem_takeWhile_imp (l := line) hx) hb
      rw [nil_append, length_nil, Nat.zero_add] at hrun
      rw [hsplit, hd, cons_append, hrun]
  rw [hfwd, byteAt]
  nth_rewrite 1 [hsplit]
  cases line.dropWhile p with
  | nil | cons b body => simp

theorem noRow_iff (h0 : 0 ∉ line) :
    noRow p line = true ↔ (line.dropWhile p).headD 0 = 35 ∨ (line.dropWhile p).headD 0 = 0 := by
  unfold noRow
  cases hd : line.dropWhile p with
  | nil => simp
  | cons b body =>
    have hb : b ≠ 0 := by
      rintro rfl
      exact h0 ((dropWhile_suffix p).subset (by rw [hd]; exact mem_cons_self))
    simp [hb]

end Key

theorem length_pieces_le (rest : List UInt8) : (pieces 44 rest).length ≤ rest.count 44 + 1 := by
  induction hn : rest.length using Nat.strong_induction_on generalizing rest with
  | _ n ih =>
    rcases pieces_cases 44 rest with rfl | ⟨-, -, hone⟩ | ⟨q, more, rfl, hq, hmore⟩
    · simp
    · rw [hone, length_singleton]
      omega
    · have hle := ih more.length (by rw [← hn, length_append, length_cons]; omega) more rfl
      rw [hmore, length_cons, count_append, count_cons_self]
      omega

section ReadRowSpec

variable {κ ν : Type} (valDup : List UInt8 → Option ν) {rowCols : Int}

theorem readVals_value {u q z : List UInt8} {c : UInt8} {vals : List (Option ν)} (fuel : Nat)
    (hq : 44 ∉ q) (h0 : 0 ∉ q) (hc : c = 44 ∨ c = 0) (hne : trim isBlank q ≠ [])
    (hcols : (vals.length : Int) < rowCols) :
    ∃ t ≤ u.length + q.length,
      readVals valDup rowCols (fuel + 1) (u ++ (q ++ c :: z)) u.length vals =
        readVals valDup rowCols fuel ((u ++ (q ++ c :: z)).set t 0)
          (if c = 0 then u.length + q.length else u.length + q.length + 1)
          (vals ++ [valDup (trim isBlank q)]) := by
  obtain ⟨lead, trail, hqe, hval, hend, hback⟩ := value_bounds (u := u) (z := z) hq h0 hc hne
  have hle : lead.length + (trim isBlank q).length ≤ q.length := by
    have hlen := congrArg length hqe
    simp only [length_append] at hlen
    omega
  refine ⟨u.length + (lead.length + (trim isBlank q).length), by omega, ?_⟩
  obtain ⟨b, q', hb⟩ : ∃ b q', q = b :: q' :=
    exists_cons_of_ne_nil fun hnil => hne (by rw [hnil]; rfl)
  have hget : (u ++ (q ++ c :: z))[u.length]? = some b := by
    rw [hb]
    simp
  have hb0 : b ≠ 0 := by
    rintro rfl
    exact h0 (by rw [hb]; exact mem_cons_self)
  have htext : cstr (((u ++ (q ++ c :: z)).set
      (u.length + (lead.length + (trim isBlank q).length)) 0).drop (u.length + lead.length)) =
      trim isBlank q := by
    have hcore : 0 ∉ trim isBlank q := fun h => h0 (mem_of_mem_trim h)
    have hset := cstr_set (u := u) (z := z) (c := c) lead trail hcore
    rwa [← hqe] at hset
  rw [readVals, hget]
  dsimp only
  rw [if_neg hb0, if_neg (by omega), hval, hend, hback, byteAt_append]
  dsimp only
  rw [htext]

/-- **The values of a line** none of which is empty: each is the trimmed piece. -/
theorem readVals_spec (rowCols : Int) (fuel : Nat) : ∀ (rest u : List UInt8) (vals : List (Option ν)),
    0 ∉ rest → (∀ q ∈ pieces 44 rest, trim isBlank q ≠ []) → rest.length < fuel →
    ((vals.length + (pieces 44 rest).length : Nat) : Int) < rowCols →
    readVals valDup rowCols fuel (u ++ (rest ++ [0])) u.length vals =
      .ok (vals ++ (pieces 44 rest).map fun q => valDup (trim isBlank q)) := by
  induction fuel with
  | zero => intro rest u vals _ _ hfuel; omega
  | succ fuel ih =>
    intro rest u vals h0 hne hfuel hcols
    rcases pieces_cases 44 rest with rfl | ⟨hnil, hmem, hone⟩ | ⟨q, more, rfl, hq, hmore⟩
    · -- the end of the line
      rw [pieces_nil, length_nil, Nat.add_zero] at hcols
      have hget : (u ++ ([] ++ [0]))[u.length]? = some (0 : UInt8) := by simp
      rw [readVals, hget]
      dsimp only
      rw [if_pos rfl, if_pos hcols, pieces_nil, map_nil, append_nil]
    · -- the last value
      rw [hone] at hne hcols ⊢
      obtain ⟨t, ht, hround⟩ := readVals_value valDup fuel (u := u) (z := []) hmem h0 (.inr rfl) (hne rest (by simp)) (by omega : (vals.length : Int) < rowCols)
      have hset : (u ++ (rest ++ [0])).set t 0 = (u ++ rest).set t 0 ++ ([] ++ [0]) := by
        rw [← append_assoc, set_append]
        split_ifs with hlt
        · rfl
        · have htl : t = (u ++ rest).length := by
            rw [length_append] at hlt ⊢
            omega
          rw [htl, Nat.sub_self, set_eq_of_length_le le_rfl]
          rfl
      have hlen : u.length + rest.length = ((u ++ rest).set t 0).length := by
        rw [length_set, length_append]
      have hpos : 0 < rest.length := length_pos_iff.mpr hnil
      rw [hround, if_pos rfl, hset, hlen, ih [] _ _ (by simp) (by simp)
        (by rw [length_nil]; omega) (by simpa using hcols)]
      simp
    · -- a value and a comma behind it
      rw [hmore] at hne hcols ⊢
      rw [length_cons] at hcols
      have h0q : 0 ∉ q := fun h => h0 (mem_append_left _ h)
      have h0more : 0 ∉ more := fun h =>
        h0 (mem_append_right _ (mem_cons_of_mem _ h))
      obtain ⟨t, ht, hround⟩ := readVals_value valDup fuel (u := u)
        (z := more ++ [0]) hq h0q (.inl rfl) (hne q mem_cons_self)
        (by omega : (vals.length : Int) < rowCols)
      have hbuf : u ++ (q ++ 44 :: more ++ [0]) = u ++ (q ++ 44 :: (more ++ [0])) := by simp
      have hset : (u ++ (q ++ 44 :: (more ++ [0]))).set t 0 =
          (u ++ (q ++ [44])).set t 0 ++ (more ++ [0]) := by
        have happ : u ++ (q ++ 44 :: (more ++ [0])) = (u ++ (q ++ [44])) ++ (more ++ [0]) := by
          simp
        rw [happ, set_append_left]
        simp only [length_append, length_singleton]
        omega
      have hlen : u.length + q.length + 1 = ((u ++ (q ++ [44])).set t 0).length := by
        simp only [length_set, length_append, length_singleton]
        omega
      have hless : more.length < fuel := by
        simp only [length_append, length_cons] at hfuel
        omega
      rw [hbuf, hround, if_neg (by decide), hset, hlen,
        ih more _ _ h0more ((forall_mem_cons.mp hne).2) hless
          (by rw [length_append, length_singleton]; omega)]
      simp

/-- A row of strings as an entry. -/
def entryOf (row : List UInt8 × Option (List (List UInt8))) :
    TextTableEntry (List UInt8) (List UInt8) :=
  { key := row.1, vals := row.2.map fun vals => vals.map some }

/-- A line with a key and without empty values. -/
def FullRow (p : UInt8 → Bool) (line : List UInt8) : Prop :=
  trim p (line.takeWhile (· != 58)) ≠ [] ∧
    ∀ q ∈ pieces 44 ((line.dropWhile (· != 58)).drop 1), trim p q ≠ []

variable {line : List UInt8}

theorem exists_colon (h : 58 ∈ line) :
    ∃ text rest, line = text ++ 58 :: rest ∧ 58 ∉ text ∧ line.takeWhile (· != 58) = text ∧
      (line.dropWhile (· != 58)).drop 1 = rest := by
  obtain ⟨text, rest, rfl, htext⟩ := eq_append_cons_of_mem h
  have hall : ∀ b ∈ text, (b != 58) = true := fun b hb => bne_iff_ne.mpr fun heq => htext (heq ▸ hb)
  refine ⟨text, rest, rfl, htext, ?_, ?_⟩
  · rw [takeWhile_append_of_pos hall]
    simp
  · rw [dropWhile_append_of_pos hall]
    simp

theorem takeWhile_of_no_colon (h : 58 ∉ line) :
    line.takeWhile (· != 58) = line :=
  takeWhile_eq_self_iff.mpr fun _ hb => bne_iff_ne.mpr fun heq => h (heq ▸ hb)

theorem parseRow_key {text z : List UInt8} {c : UInt8} (h0 : 0 ∉ text)
    (hne : trim isBlank text ≠ []) :
    ∃ t ≤ text.length, backward isBlank (text ++ c :: z) text.length = some t ∧
      cstr (((text ++ c :: z).set t 0).drop (forward isBlank (text ++ c :: z) 0)) =
        trim isBlank text := by
  obtain ⟨lead, trail, htext, hfwd, hbwd, -⟩ := key_bounds (c := c) (z := z) hne
  have hlen := congrArg length htext
  simp only [length_append] at hlen
  have hset := cstr_set (u := []) (z := z) (c := c) lead trail
    fun h : 0 ∈ trim isBlank text => h0 (mem_of_mem_trim h)
  rw [← htext] at hset
  simp only [length_nil, Nat.zero_add] at hset
  refine ⟨_, by omega, hbwd, ?_⟩
  rw [hfwd]
  exact hset

/-- **The row parser** on lines without a zero: comments and blank lines are skipped, and of a
line with a key and without empty values it makes the row. -/
theorem parseRow_spec (h0 : 0 ∉ line) (hfull : noRow isBlank line = true ∨ FullRow isBlank line) :
    parseRow some some tableCols (line ++ [0]) = .ok ((rowOf isBlank line).map entryOf) := by
  unfold parseRow rowOf
  dsimp only
  rw [byteAt_forward (by rfl)]
  by_cases hno : noRow isBlank line = true
  · rw [if_pos hno]
    rcases (noRow_iff h0).mp hno with h | h
    · rw [if_pos h]
      rfl
    · rw [h]
      rfl
  obtain ⟨hkey, hvals⟩ := hfull.resolve_left hno
  have hfirst := hno
  rw [noRow_iff h0, not_or] at hfirst
  rw [if_neg hfirst.1, if_neg hfirst.2, if_neg hno]
  by_cases hcolon : 58 ∈ line
  · obtain ⟨text, rest, rfl, htext, htake, hdrop⟩ := exists_colon hcolon
    rw [htake] at hkey
    rw [hdrop] at hvals
    rw [htake, hdrop]
    have h0text : 0 ∉ text := fun h => h0 (mem_append_left _ h)
    have h0rest : 0 ∉ rest := fun h => h0 (mem_append_right _ (mem_cons_of_mem _ h))
    have hbuf : text ++ 58 :: rest ++ [0] = text ++ 58 :: (rest ++ [0]) := by simp
    obtain ⟨t, ht, hback, hstr⟩ := parseRow_key (c := 58) (z := rest ++ [0]) h0text hkey
    have hchr : strchr (text ++ 58 :: (rest ++ [0])) 0 58 = some text.length := by
      have h := strchr_stop (u := []) (z := rest ++ [0]) htext h0text (.inl rfl)
      simpa using h
    have hcols : rowColumns tableCols (text ++ 58 :: (rest ++ [0])) = 2 + (rest.count 44 : Nat) := by
      rw [rowColumns, if_pos (by decide), hchr]
      dsimp only
      rw [countChr_colon h0rest]
    have hset : (text ++ 58 :: (rest ++ [0])).set t 0 = (text ++ [58]).set t 0 ++ (rest ++ [0]) := by
      have happ : text ++ 58 :: (rest ++ [0]) = (text ++ [58]) ++ (rest ++ [0]) := by simp
      rw [happ, set_append_left]
      rw [length_append, length_singleton]
      omega
    have hlen : text.length + 1 = ((text ++ [58]).set t 0).length := by
      rw [length_set, length_append, length_singleton]
    have hread := readVals_spec some (2 + (rest.count 44 : Nat))
      ((text ++ 58 :: (rest ++ [0])).set t 0).length rest ((text ++ [58]).set t 0) [] h0rest hvals
      (by simp only [length_set, length_append, length_cons]; omega)
      (by
        have hle := length_pieces_le rest
        rw [length_nil]
        omega)
    rw [← hset, ← hlen] at hread
    rw [hbuf, hcols, if_pos (by omega), strchr_key hkey (.inl rfl) htext h0text, if_pos rfl,
      Option.getD_some, hback]
    dsimp only
    rw [hstr, if_pos (by omega), hread]
    simp [entryOf]
  · rw [takeWhile_of_no_colon hcolon] at hkey ⊢
    rw [if_neg hcolon]
    obtain ⟨t, -, hback, hstr⟩ := parseRow_key (c := 0) (z := []) h0 hkey
    have hcols : rowColumns tableCols (line ++ [0]) = 1 := by
      have hchr := strchr_stop (u := []) (z := []) hcolon h0 (.inr rfl)
      rw [rowColumns, if_pos (by decide)]
      rw [nil_append, length_nil, if_neg (by decide)] at hchr
      rw [hchr]
    rw [hcols, if_neg (by decide), Option.getD_none, strEnd_key hkey h0, hback]
    dsimp only
    rw [hstr]
    rfl

end ReadRowSpec

end CIcap
