import CIcap.Lib.CText

/-! # Header lists

`ci_headers_list_t` of `header.c`. The buffer of a list and the index into it are one list of
lines: a line is the text of a header and the line end behind it, which is `\r\n`, or a bare
`\n` where the block the list was read from has one. While the list is edited the first byte
of each line end is zero; `ci_headers_pack` restores it. `size` is the number of entries the
index has room for; it survives `ci_headers_reset`.
-/

namespace CIcap

open CText List

/-- A header and the kind of its line end. -/
structure HeaderLine where
  text : List UInt8
  crlf : Bool := true
  deriving DecidableEq

/-- `HEADERSTARTSIZE` -/
def headerStartSize : Nat := 64

/-- The number of entries an index may grow to in `headers_check_space`. -/
def headerIndexLimit : Nat := 2048

/-- `ci_headers_list_t` -/
structure Headers where
  lines : List HeaderLine := []
  size : Nat := headerStartSize
  packed : Bool := false
  deriving DecidableEq

namespace Headers

/-- The line end as it stands in the buffer. -/
def lineEnd (packed crlf : Bool) : List UInt8 :=
  match packed, crlf with
  | true, true => [13, 10]
  | true, false => [10]
  | false, true => [0, 10]
  | false, false => [0]

/-- The used part of `buf`. -/
def buf (h : Headers) : List UInt8 :=
  if h.lines = [] then []
  else h.lines.flatMap (fun l => l.text ++ lineEnd h.packed l.crlf) ++ crlf

def texts (h : Headers) : List (List UInt8) := h.lines.map (·.text)

/-- `ci_headers_reset` -/
def reset (h : Headers) : Headers := { h with lines := [], packed := false }

/-- The index part of `headers_check_space`: the new size of the index, in steps of
`HEADERSTARTSIZE`, or `none` when it would pass the limit. -/
def checkSpace (h : Headers) (newHeaders : Nat) : Option Nat :=
  let missing := h.lines.length + newHeaders - h.size
  if missing = 0 then some h.size
  else
    let required := h.size + headerStartSize * ((missing + headerStartSize - 1) / headerStartSize)
    if headerIndexLimit < required then none else some required

/-- `ci_headers_add` -/
def add? (h : Headers) (line : List UInt8) : Option Headers :=
  if h.packed then none
  else (h.checkSpace 1).map fun size => { h with lines := h.lines ++ [⟨line, true⟩], size := size }

/-- `ci_headers_add` for a caller that does not look at the result. -/
def add (h : Headers) (line : List UInt8) : Headers := (h.add? line).getD h

def addAll (h : Headers) (lines : List (List UInt8)) : Headers := lines.foldl add h

/-- `ci_headers_addheaders` for a caller that does not look at the result. -/
def addHeaders (h headers : Headers) : Headers :=
  if h.packed || headers.packed then h
  else
    match h.checkSpace headers.lines.length with
    | none => h
    | some size => { h with lines := h.lines ++ headers.lines, size := size }

/-- `ci_headers_is_empty` -/
def isEmpty (h : Headers) : Bool := h.lines = []

/-- `ci_headers_pack`: an empty list stays as it is. -/
def pack (h : Headers) : Headers := if h.lines = [] then h else { h with packed := true }

/-! ## Reading a block -/

/-- The text of a line with the zeros replaced that would end it too early. -/
def cleanByte (b : UInt8) : UInt8 := if b = 0 then 32 else b

/-- The lines of a block without the line ends at its end, `line` being the part of the
current line that has been read. The byte that follows a line end is not looked at: it starts
the next line whatever it is. -/
def scanLines (line : List UInt8) : List UInt8 → List HeaderLine
  | [] => [⟨line, true⟩]
  | [b] => if b = 10 then [⟨line, false⟩, ⟨[], true⟩] else [⟨line ++ [cleanByte b], true⟩]
  | b :: c :: rest =>
    if b = 13 ∧ c = 10 ∧ rest.head? ≠ some 9 ∧ rest.head? ≠ some 32 then
      match rest with
      | [] => [⟨line, true⟩, ⟨[], true⟩]
      | d :: rest => ⟨line, true⟩ :: scanLines [d] rest
    else if b = 10 ∧ c ≠ 9 ∧ c ≠ 32 then
      -- a second line feed is taken with the first one
      if c = 10 then
        match rest with
        | [] => [⟨line, true⟩, ⟨[], true⟩]
        | d :: rest => ⟨line, true⟩ :: scanLines [d] rest
      else ⟨line, false⟩ :: scanLines [c] rest
    else scanLines (line ++ [cleanByte b]) (c :: rest)

/-- The block without the line ends at its end, of which the first byte of the block is
never one. -/
def stripEnd (block : List UInt8) : List UInt8 :=
  match block with
  | [] => []
  | b :: rest => b :: (rest.reverse.dropWhile (fun c => c = 13 || c = 10)).reverse

/-- `ci_headers_unpack` of a block that has just been read into a list: the list, or `none`
for `EC_400`. An empty block is an empty list. -/
def unpack (h : Headers) (block : List UInt8) : Option Headers :=
  if block = [] then some h
  else if block.length < 2 then none
  else
    let last := (block.drop (block.length - 2)).headD 0
    if last ≠ 13 ∧ last ≠ 10 then none
    else
      let lines := scanLines [] (stripEnd (block.take (block.length - 2)))
      -- the index grows by `HEADERSTARTSIZE` and has no limit here
      let grown := headerStartSize * ((lines.length + headerStartSize - 1) / headerStartSize)
      some { lines := lines, size := max h.size grown, packed := false }

/-! ## Searching -/

/-- The line is a header of the given name. -/
def named (name text : List UInt8) : Bool :=
  (text.drop name.length).head? = some 58 && (text.take name.length).map lower = name.map lower

/-- `ci_headers_value` -/
def value (h : Headers) (name : List UInt8) : Option (List UInt8) :=
  ((h.texts.find? (named name)).map fun text => (text.drop (name.length + 1)).dropWhile isBlank)

/-! ## Adding lines -/

theorem texts_add (h : Headers) (line : List UInt8) :
    (h.add line).texts = h.texts ∨ (h.add line).texts = h.texts ++ [line] := by
  unfold add add?
  split_ifs
  · exact .inl rfl
  · cases h.checkSpace 1 with
    | none => exact .inl rfl
    | some size => exact .inr (by simp [texts])

theorem texts_addHeaders (h hs : Headers) :
    (h.addHeaders hs).texts = h.texts ∨ (h.addHeaders hs).texts = h.texts ++ hs.texts := by
  unfold addHeaders
  split_ifs
  · exact .inl rfl
  · split
    · exact .inl rfl
    · exact .inr (by simp [texts])

theorem add_packed (h : Headers) (line : List UInt8) : (h.add line).packed = h.packed := by
  unfold add add?
  split_ifs
  · rfl
  · cases h.checkSpace 1 <;> rfl

theorem addAll_packed (h : Headers) (lines : List (List UInt8)) :
    (h.addAll lines).packed = h.packed := by
  induction lines generalizing h with
  | nil => rfl
  | cons line lines ih => exact (ih (h.add line)).trans (h.add_packed line)

theorem addHeaders_packed (h hs : Headers) : (h.addHeaders hs).packed = h.packed := by
  unfold addHeaders
  split_ifs
  · rfl
  · split <;> rfl

theorem lines_add (h : Headers) (line : List UInt8) : h.lines <+: (h.add line).lines := by
  unfold add add?
  split_ifs
  · exact prefix_rfl
  · cases h.checkSpace 1 with
    | none => exact prefix_rfl
    | some size => exact prefix_append _ _

theorem lines_addAll (h : Headers) (lines : List (List UInt8)) : h.lines <+: (h.addAll lines).lines := by
  induction lines generalizing h with
  | nil => exact prefix_rfl
  | cons line lines ih => exact (h.lines_add line).trans (ih (h.add line))

theorem lines_addHeaders (h hs : Headers) : h.lines <+: (h.addHeaders hs).lines := by
  unfold addHeaders
  split_ifs
  · exact prefix_rfl
  · split
    · exact prefix_rfl
    · exact prefix_append _ _

/-! ## Room in the index -/

/-- The index has room for `n` more lines, or can get it. -/
def Room (h : Headers) (n : Nat) : Prop := (h.checkSpace n).isSome = true

theorem room_iff (h : Headers) (n : Nat) : h.Room n ↔ h.lines.length + n ≤ h.size ∨
      h.size + 64 * ((h.lines.length + n - h.size + 63) / 64) ≤ 2048 := by
  unfold Room checkSpace headerStartSize headerIndexLimit
  dsimp only
  split_ifs with h1 h2
  all_goals simp; omega

theorem add_of_room {h : Headers} {line : List UInt8} (hp : h.packed = false) (hr : h.Room 1) :
    ∃ size, h.add line = { h with lines := h.lines ++ [⟨line, true⟩], size := size } := by
  obtain ⟨size, hs⟩ := Option.isSome_iff_exists.mp hr
  exact ⟨size, by simp [add, add?, hp, hs]⟩

variable {h : Headers} {n : Nat}

theorem add_of_full (hr : ¬ h.Room 1) (line : List UInt8) : h.add line = h := by
  unfold Room at hr
  rw [Bool.not_eq_true, Option.isSome_eq_false_iff, Option.isNone_iff_eq_none] at hr
  simp [add, add?, hr]

theorem Room.mono {m : Nat} (hr : h.Room n) (hmn : m ≤ n) : h.Room m := by
  rw [room_iff] at *
  omega

/-- Lines that were added take their part of the room. -/
theorem Room.grown {m size : Nat} (hr : h.Room (m + n))
    (hs : h.checkSpace m = some size) {lines : List HeaderLine}
    (hl : lines.length = h.lines.length + m) :
    ({ h with lines := lines, size := size } : Headers).Room n := by
  rw [room_iff] at *
  simp only [hl]
  unfold checkSpace headerStartSize headerIndexLimit at hs
  dsimp only at hs
  split_ifs at hs with h1 h2
  · simp only [Option.some.injEq] at hs
    omega
  · simp only [Option.some.injEq] at hs
    omega

theorem Room.add (hr : h.Room (1 + n)) (line : List UInt8) : (h.add line).Room n := by
  unfold Headers.add add?
  split_ifs
  · exact hr.mono (by omega)
  · cases hs : h.checkSpace 1 with
    | none => exact hr.mono (by omega)
    | some size => exact hr.grown hs (by simp)

theorem Room.addAll (lines : List (List UInt8))
    (hr : h.Room (lines.length + n)) : (h.addAll lines).Room n := by
  induction lines generalizing h with
  | nil => exact hr.mono (by omega)
  | cons line lines ih =>
    refine ih (Room.add ?_ line)
    exact hr.mono (by simp only [length_cons]; omega)

theorem Room.addHeaders (hs : Headers)
    (hr : h.Room (hs.lines.length + n)) : (h.addHeaders hs).Room n := by
  unfold Headers.addHeaders
  split_ifs
  · exact hr.mono (by omega)
  · split
    · exact hr.mono (by omega)
    · rename_i hsz
      exact hr.grown hsz (by simp)

theorem room_reset (h : Headers) : h.reset.Room 1 := by
  rw [room_iff]
  simp only [reset, length_nil]
  omega

end Headers

end CIcap
