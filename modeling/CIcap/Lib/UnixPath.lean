import Mathlib.Tactic

/-! # Path names

A path name is a list of characters; its components are the parts between the slashes. Over
any type of characters with a slash and a dot, a path is resolved by walking its components
from the root or, for a relative path, from the working directory: an empty component and `.`
stay, `..` leaves the directory (and stays in the root), any other component is entered.
What a walk does does not depend on where it starts: it goes up some levels and then down some
names (`climb`, `walk_eq`).
-/

namespace UnixPath

open List

variable {α : Type} [DecidableEq α] (slash dot : α)

/-- The parts between the slashes. -/
def components : List α → List (List α)
  | [] => [[]]
  | b :: s =>
    if b = slash then [] :: components s
    else
      match components s with
      | [] => [[b]]
      | c :: cs => (b :: c) :: cs

theorem components_ne_nil (s : List α) : components slash s ≠ [] := by
  cases s with
  | nil => simp [components]
  | cons b s =>
    rw [components]
    split
    · simp
    · split <;> simp

/-- A slash between two paths splits the components. -/
theorem components_append_slash (s t : List α) :
    components slash (s ++ slash :: t) = components slash s ++ components slash t := by
  induction s with
  | nil => simp [components]
  | cons b s ih =>
    rw [cons_append, components, components, ih]
    by_cases hb : b = slash
    · rw [if_pos hb, if_pos hb, cons_append]
    · rw [if_neg hb, if_neg hb]
      cases hs : components slash s with
      | nil => exact absurd hs (components_ne_nil slash s)
      | cons c cs => rfl

/-- One component from a directory, which is the list of names from the root. -/
def enter (dir : List (List α)) (c : List α) : List (List α) :=
  if c = [] ∨ c = [dot] then dir
  else if c = [dot, dot] then dir.dropLast
  else dir ++ [c]

/-- The directory or file that a list of components leads to. -/
def walk (dir : List (List α)) (cs : List (List α)) : List (List α) := cs.foldl (enter dot) dir

/-- Resolution of a path from a working directory. -/
def resolve (cwd : List (List α)) (path : List α) : List (List α) :=
  walk dot (if path.head? = some slash then [] else cwd) (components slash path)

/-! ## Going up and down -/

/-- One component after going up `ups` levels and down `names`. -/
def climbStep (at_ : Nat × List (List α)) (c : List α) : Nat × List (List α) :=
  if c = [] ∨ c = [dot] then at_
  else if c = [dot, dot] then
    if at_.2 = [] then (at_.1 + 1, []) else (at_.1, at_.2.dropLast)
  else (at_.1, at_.2 ++ [c])

/-- How many levels a list of components goes up, and the names it then goes down. -/
def climb (cs : List (List α)) : Nat × List (List α) := cs.foldl (climbStep dot) (0, [])

/-- The directory reached from `dir` by going up and down. -/
def reach (dir : List (List α)) (at_ : Nat × List (List α)) : List (List α) :=
  dir.take (dir.length - at_.1) ++ at_.2

theorem reach_climbStep (dir : List (List α)) (at_ : Nat × List (List α)) (c : List α) :
    reach dir (climbStep dot at_ c) = enter dot (reach dir at_) c := by
  obtain ⟨ups, names⟩ := at_
  unfold climbStep enter
  by_cases hstay : c = [] ∨ c = [dot]
  · rw [if_pos hstay, if_pos hstay]
  rw [if_neg hstay, if_neg hstay]
  by_cases hup : c = [dot, dot]
  · rw [if_pos hup, if_pos hup]
    by_cases hn : names = []
    · -- above the names walked so far, one more level of `dir` is left
      subst hn
      have hlen : min (dir.length - ups) dir.length - 1 = dir.length - (ups + 1) := by omega
      simp only [reach, append_nil, if_true]
      rw [dropLast_eq_take, length_take, take_take]
      congr 1
      omega
    · rw [if_neg hn]
      simp only [reach, dropLast_append_of_ne_nil hn]
  · rw [if_neg hup, if_neg hup]
    simp only [reach, append_assoc]

/-- **A walk is a climb.** -/
theorem walk_eq (dir : List (List α)) (cs : List (List α)) :
    walk dot dir cs = reach dir (climb dot cs) := by
  have key : ∀ at_, cs.foldl (enter dot) (reach dir at_) =
      reach dir (cs.foldl (climbStep dot) at_) := by
    induction cs with
    | nil => intro at_; rfl
    | cons c cs ih =>
      intro at_
      rw [foldl_cons, foldl_cons, ← reach_climbStep, ih]
  have h := key (0, [])
  simpa [reach, walk, climb] using h

/-- A walk stays below the directory it starts in exactly when the names it goes down begin
with the names it went up. -/
theorem walk_below_iff (dir cs more : List (List α)) : walk dot dir cs = dir ++ more ↔
      (climb dot cs).2 = dir.drop (dir.length - (climb dot cs).1) ++ more := by
  rw [walk_eq, reach]
  constructor
  · intro h
    have hdir : dir ++ more = dir.take (dir.length - (climb dot cs).1) ++
        (dir.drop (dir.length - (climb dot cs).1) ++ more) := by
      rw [← append_assoc, take_append_drop]
    rw [hdir] at h
    exact append_cancel_left h
  · intro h
    rw [h, ← append_assoc, take_append_drop]

end UnixPath
