import CIcap.Lib.CText

/-! # Reading the lines of a configuration file

`parse_file` of `cfg_param.c` reads a file line by line with `fread_line` and hands each line to
`process_line`. `fread_line` reads with `fgets` into a buffer of `LINESIZE` bytes and throws the rest
of a longer line away. A `FILE` is the bytes that have not been read and the flag of `feof`; reading
does not fail.

A line that is handed over comes with the number of bytes that the file still had at its start, so
that two lines with the same text are told apart.
-/

namespace CIcap

open CText List

/-- `LINESIZE` -/
def lineSize : Nat := 8192

/-- `MAX_INCLUDE_LEVEL` -/
def maxIncludeLevel : Nat := 5

/-- An open file. -/
structure ConfFile where
  rest : List UInt8
  eof : Bool
deriving DecidableEq, Repr

namespace ConfFile

/-! ## The functions -/

/-- What `fgets` reads: at most `n` bytes, up to a newline. -/
def fgets : Nat → List UInt8 → List UInt8 × ConfFile
  | 0, rest => ([], ⟨rest, false⟩)
  | _ + 1, [] => ([], ⟨[], true⟩)
  | n + 1, b :: rest =>
    if b = 10 then ([10], ⟨rest, false⟩)
    else
      let (data, f) := fgets n rest
      (b :: data, f)

/-- The loop that reads with `fgetc` up to a newline, which it may not find. -/
def skipLine : List UInt8 → Bool × ConfFile
  | [] => (false, ⟨[], true⟩)
  | b :: rest => if b = 10 then (true, ⟨rest, false⟩) else skipLine rest

/-- `fread_line`: its result, the string in `line` and the file. -/
def freadLine (f : ConfFile) : Int × List UInt8 × ConfFile :=
  let data := (fgets (lineSize - 1) f.rest).1
  let f := (fgets (lineSize - 1) f.rest).2
  if data = [] then
    if f.eof then (-1, [], f) else (0, [], f)
  else if (cstr data).length ≥ lineSize - 2 ∧ (data ++ [0]).getD (lineSize - 2) 0 ≠ 10 then
    -- the line is taken to be longer than the buffer
    if f.eof then (0, cstr data, f)
    else (if (skipLine f.rest).1 then 1 else 0, cstr data, (skipLine f.rest).2)
  else (1, cstr data, f)

/-- The loop of `parse_file`: where each read starts, its result and its line. -/
def reads : Nat → ConfFile → List (Nat × Int × List UInt8)
  | 0, _ => []
  | fuel + 1, f =>
    if f.eof then []
    else (f.rest.length, (freadLine f).1, (freadLine f).2.1) :: reads fuel (freadLine f).2.2

end ConfFile

open ConfFile

/-- The lines that are handed to `process_line`. -/
def handedLines (rs : List (Nat × Int × List UInt8)) : List (Nat × List UInt8) :=
  rs.filterMap (fun r => if r.2.1 ≠ 0 then some (r.1, r.2.2) else none)

/-- `parse_file`: its result and the lines that it hands over. `content` is what `fopen` opens. Each
read takes a byte off the file or meets its end, so that there are no more reads than one more than
there are bytes. -/
def parseFile (parseLevel : Nat) (content : Option (List UInt8)) (processLine : List UInt8 → Bool) :
    Bool × List (Nat × List UInt8) :=
  if parseLevel ≥ maxIncludeLevel then (false, [])
  else
    match content with
    | none => (false, [])
    | some file =>
      let rs := reads (file.length + 1) ⟨file, false⟩
      (rs.all (fun r => r.2.1 ≠ 0 && processLine r.2.2), handedLines rs)

/-! ## The lines of a file -/

/-- A line without its newline; the last line may have none. -/
structure ConfLine where
  content : List UInt8
  newline : Bool
deriving DecidableEq, Repr

def ConfLine.raw (l : ConfLine) : List UInt8 := l.content ++ (if l.newline then [10] else [])

def confLines : List UInt8 → List ConfLine
  | [] => []
  | b :: rest =>
    if b = 10 then ⟨[], true⟩ :: confLines rest
    else
      match confLines rest with
      | [] => [⟨[b], false⟩]
      | l :: ls => ⟨b :: l.content, l.newline⟩ :: ls

/-- What is to be handed over: every line, cut to the buffer, with its place in the file. -/
def wantedLines : List ConfLine → List (Nat × List UInt8)
  | [] => []
  | l :: ls =>
    (((l :: ls).flatMap ConfLine.raw).length, cstr (l.raw.take (lineSize - 1))) :: wantedLines ls

/-- The lines of the file are handed over in order, and at most one empty line at its end. -/
def LinesHanded (file : List UInt8) (handed : List (Nat × List UInt8)) : Prop :=
  handed = wantedLines (confLines file) ∨ handed = wantedLines (confLines file) ++ [(0, [])]

theorem confLines_flatMap (file : List UInt8) : (confLines file).flatMap ConfLine.raw = file := by
  induction file with
  | nil => rfl
  | cons b rest ih =>
    rw [confLines]
    split
    · next hb => simp [ConfLine.raw, ih, hb]
    · cases hlines : confLines rest with
      | nil | cons l ls =>
        rw [hlines] at ih
        simp [ConfLine.raw, ← ih]

theorem confLines_newline {c : List UInt8} (hc : 10 ∉ c) (rest : List UInt8) :
    confLines (c ++ 10 :: rest) = ⟨c, true⟩ :: confLines rest := by
  induction c with
  | nil => simp [confLines]
  | cons b c ih =>
    have hb : b ≠ 10 := fun h => hc (by simp [h])
    have hrest := ih fun h => hc (mem_cons_of_mem _ h)
    simp [confLines, hb, hrest]

theorem confLines_last {c : List UInt8} (hc : 10 ∉ c) (hne : c ≠ []) :
    confLines c = [⟨c, false⟩] := by
  induction c with
  | nil => exact absurd rfl hne
  | cons b c ih =>
    have hb : b ≠ 10 := fun h => hc (by simp [h])
    have hrest : 10 ∉ c := fun h => hc (mem_cons_of_mem _ h)
    cases c with
    | nil => simp [confLines, hb]
    | cons b' c => rw [confLines, if_neg hb, ih hrest (by simp)]

/-! ## `fgets` -/

namespace ConfFile

variable {c : List UInt8} {n : Nat} (hc : 10 ∉ c)
include hc

/-- `fgets` reads over bytes that end no line, when there is room for them. -/
theorem fgets_append (hn : c.length ≤ n) (rest : List UInt8) : fgets n (c ++ rest) =
    (c ++ (fgets (n - c.length) rest).1, (fgets (n - c.length) rest).2) := by
  induction c generalizing n with
  | nil => rfl
  | cons b c ih =>
    obtain ⟨n, rfl⟩ : ∃ k, n = k + 1 := ⟨n - 1, by simp at hn; omega⟩
    have hb : b ≠ 10 := fun h => hc (by simp [h])
    have hrest := ih (fun h => hc (mem_cons_of_mem _ h)) (n := n) (by simpa using hn)
    simp [fgets, hb, hrest]

theorem fgets_newline (hn : c.length < n)
    (rest : List UInt8) : fgets n (c ++ 10 :: rest) = (c ++ [10], ⟨rest, false⟩) := by
  obtain ⟨k, hk⟩ : ∃ k, n - c.length = k + 1 := ⟨n - c.length - 1, by omega⟩
  simp [fgets_append hc hn.le, hk, fgets]

theorem fgets_full (hn : n ≤ c.length)
    (rest : List UInt8) : fgets n (c ++ rest) = (c.take n, ⟨c.drop n ++ rest, false⟩) := by
  have htake : (c.take n).length = n := by rw [length_take]; omega
  have hread := fgets_append (fun h => hc (mem_of_mem_take h)) htake.le (c.drop n ++ rest)
  rwa [← append_assoc, take_append_drop, htake, Nat.sub_self, fgets, append_nil] at hread

theorem fgets_last (hn : c.length < n) : fgets n c = (c, ⟨[], true⟩) := by
  obtain ⟨k, hk⟩ : ∃ k, n - c.length = k + 1 := ⟨n - c.length - 1, by omega⟩
  simpa [hk, fgets] using fgets_append hc hn.le []

theorem skipLine_append (rest : List UInt8) : skipLine (c ++ rest) = skipLine rest := by
  induction c with
  | nil => rfl
  | cons b c ih =>
    have hb : b ≠ 10 := fun h => hc (by simp [h])
    simp [skipLine, hb, ih fun h => hc (mem_cons_of_mem _ h)]

theorem skipLine_newline (rest : List UInt8) :
    skipLine (c ++ 10 :: rest) = (true, ⟨rest, false⟩) := by
  simp [skipLine_append hc, skipLine]

theorem skipLine_last : skipLine c = (false, ⟨[], true⟩) := by
  simpa [skipLine] using skipLine_append hc []

end ConfFile

end CIcap
