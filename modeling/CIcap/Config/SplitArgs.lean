import CIcap.Lib.CText

/-! # The arguments of a directive

`split_args` cuts the text behind a directive into arguments. It edits the text in place: an escaped
quote inside an argument in quotes is reached by shifting all that follows it left by one byte. A text
is kept here from the position of the loop on, without its NUL.
-/

namespace CIcap

open CText List

/-- `MAX_ARGS` -/
def maxArgs : Nat := 50

/-- The loop over an argument in quotes: the argument, and the text from its end on. -/
def quotedArg : List UInt8 → List UInt8 × List UInt8
  | [] => ([], [])
  | [b] => if b = 34 then ([], [b]) else ([b], [])
  | b :: c :: s =>
    if b = 34 then ([], b :: c :: s)
    else if b = 92 ∧ c = 34 then
      -- the shift puts the quote in the place of the backslash, and the loop steps over it
      (c :: (quotedArg s).1, (quotedArg s).2)
    else (b :: (quotedArg (c :: s)).1, (quotedArg (c :: s)).2)

/-- The loop over an argument without quotes, where `brkt` says that it is inside of braces. -/
def plainArg : Bool → List UInt8 → List UInt8 × List UInt8
  | _, [] => ([], [])
  | brkt, b :: s =>
    if isSpace b ∧ ¬ brkt then ([], b :: s)
    else
      let r := plainArg (if b = 123 then true else if brkt ∧ b = 125 then false else brkt) s
      (b :: r.1, r.2)

/-- The loop of `split_args`, which has room for `n` more arguments. -/
def splitLoop : Nat → List UInt8 → List (List UInt8)
  | 0, _ => []
  | n + 1, text =>
    let r := if text.head? = some 34 then quotedArg (text.drop 1) else plainArg false text
    let rest := (if r.2.head? = some 34 then r.2.drop 1 else r.2).dropWhile isSpace
    r.1 :: if rest = [] then [] else splitLoop n rest

/-- `split_args` -/
def splitArgs (args : List UInt8) : List (List UInt8) := splitLoop maxArgs args

/-- An argument in double quotes, its own quotes escaped. -/
def quoteArg (arg : List UInt8) : List UInt8 :=
  34 :: arg.flatMap (fun b => if b = 34 then [92, b] else [b]) ++ [34]

/-- Arguments in quotes, each behind the text that separates it from the one before. -/
def joinArgs (args : List (List UInt8 × List UInt8)) : List UInt8 :=
  args.flatMap fun a => a.1 ++ quoteArg a.2

theorem quotedArg_cons {b : UInt8} (hq : b ≠ 34) (hb : b ≠ 92) (s : List UInt8) :
    quotedArg (b :: s) = (b :: (quotedArg s).1, (quotedArg s).2) := by
  cases s <;> simp [quotedArg, hq, hb]

/-- The loop over an argument in quotes reads what was quoted. -/
theorem quotedArg_escaped {arg : List UInt8} (h : 92 ∉ arg) (rest : List UInt8) :
    quotedArg (arg.flatMap (fun b => if b = 34 then [92, b] else [b]) ++ 34 :: rest) =
      (arg, 34 :: rest) := by
  induction arg with
  | nil => cases rest <;> simp [quotedArg]
  | cons b arg ih =>
    have hb : b ≠ 92 := fun hb => h (hb ▸ mem_cons_self)
    have hrest := ih fun hm => h (mem_cons_of_mem b hm)
    by_cases hq : b = 34
    · simp [quotedArg, hq, hrest]
    · rw [flatMap_cons, if_neg hq, append_assoc, singleton_append, quotedArg_cons hq hb, hrest]

theorem splitLoop_quoteArg {arg : List UInt8} (h : 92 ∉ arg) (n : Nat) (rest : List UInt8) :
    splitLoop (n + 1) (quoteArg arg ++ rest) =
      arg :: if rest.dropWhile isSpace = [] then [] else splitLoop n (rest.dropWhile isSpace) := by
  have hread := quotedArg_escaped h rest
  rw [← singleton_append, ← append_assoc] at hread
  simp only [splitLoop, quoteArg, cons_append, head?_cons, if_true, drop_succ_cons, drop_zero, hread,
    nil_append]

/-- **Arguments in quotes are read back.** A list of at most 50 arguments without backslashes, each in
double quotes with its quotes escaped and separated by whitespace, is what `split_args` returns. -/
theorem split_args_quoted (arg : List UInt8) (args : List (List UInt8 × List UInt8))
    (hlen : args.length + 1 ≤ maxArgs) (harg : ∀ a ∈ arg :: args.map Prod.snd, 92 ∉ a)
    (hgap : ∀ a ∈ args, a.1 ≠ [] ∧ ∀ b ∈ a.1, isSpace b = true) :
    splitArgs (quoteArg arg ++ joinArgs args) = arg :: args.map Prod.snd := by
  rw [splitArgs]
  generalize maxArgs = n at hlen
  induction args generalizing arg n with
  | nil =>
    obtain ⟨n, rfl⟩ := Nat.exists_eq_add_of_lt hlen
    rw [splitLoop_quoteArg (harg arg mem_cons_self)]
    rfl
  | cons a args ih =>
    obtain ⟨n, rfl⟩ : ∃ k, n = k + 1 := ⟨n - 1, by omega⟩
    -- the whitespace before the next argument is skipped up to its quote
    have hskip : (joinArgs (a :: args)).dropWhile isSpace = quoteArg a.2 ++ joinArgs args := by
      rw [joinArgs, flatMap_cons, append_assoc, dropWhile_append_of_pos (hgap a mem_cons_self).2]
      rfl
    rw [splitLoop_quoteArg (harg arg mem_cons_self), hskip, if_neg (by simp [quoteArg]),
      ih a.2 (fun b hb => harg b (mem_cons_of_mem _ hb)) (fun b hb => hgap b (mem_cons_of_mem _ hb)) n
        (by simpa using hlen)]
    rfl

theorem split_args_quoted_two :
    splitArgs (bytes "\"a \\\"b\\\"\" \t\"\"") = [bytes "a \"b\"", []] :=
  split_args_quoted (bytes "a \"b\"") [(bytes " \t", [])] (by decide) (by decide) (by decide)

end CIcap
