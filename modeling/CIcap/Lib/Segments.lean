import Mathlib.Data.List.Basic
import Mathlib.Tactic

/-! # A block of memory cut into segments

A block is a list of cells. `write` overwrites a part of it. `starts` lists the positions at which
segments that lie one behind the other begin, as an index of pointers into the block does.
-/

namespace Segments

open List

variable {α : Type}

/-! ## Writing -/

/-- The block with `data` written at `pos`. -/
def write (buf : List α) (pos : Nat) (data : List α) : List α :=
  buf.take pos ++ data ++ buf.drop (pos + data.length)

theorem length_write {buf data : List α} {pos : Nat} (h : pos + data.length ≤ buf.length) :
    (write buf pos data).length = buf.length := by
  simp only [write, length_append, length_take, length_drop]
  omega

theorem write_append (before old after data : List α) (h : data.length = old.length) :
    write (before ++ old ++ after) before.length data = before ++ data ++ after := by
  unfold write
  rw [append_assoc before old, take_left, drop_append, drop_eq_nil_of_le (by omega),
    nil_append, Nat.add_sub_cancel_left, h, drop_left]

theorem set_append (before after : List α) (a b : α) :
    (before ++ a :: after).set before.length b = before ++ b :: after := by
  simp

theorem getElem?_append (before after : List α) (a : α) :
    (before ++ a :: after)[before.length]? = some a := by
  simp

theorem getElem?_eq_getD {l : List α} {i : Nat} (h : i < l.length) (d : α) :
    l[i]? = some (l.getD i d) := by
  rw [getD_eq_getElem?_getD, getElem?_eq_getElem h]
  rfl

/-! ## The index -/

/-- The positions of the segments, the first one at `pos`. -/
def starts (pos : Nat) : List (List α) → List Nat
  | [] => []
  | s :: ss => pos :: starts (pos + s.length) ss

@[simp] theorem length_starts (pos : Nat) (ss : List (List α)) :
    (starts pos ss).length = ss.length := by
  induction ss generalizing pos with
  | nil => rfl
  | cons s ss ih => simp [starts, ih]

theorem starts_append (pos : Nat) (ss ts : List (List α)) :
    starts pos (ss ++ ts) = starts pos ss ++ starts (pos + ss.flatten.length) ts := by
  induction ss generalizing pos with
  | nil => simp [starts]
  | cons s ss ih => simp [starts, ih, Nat.add_assoc]

theorem starts_add (pos n : Nat) (ss : List (List α)) :
    starts (pos + n) ss = (starts n ss).map (pos + ·) := by
  induction ss generalizing n with
  | nil => rfl
  | cons s ss ih => simp [starts, ← ih, Nat.add_assoc]

/-- The positions depend on the lengths of the segments only. -/
theorem starts_congr {ss ts : List (List α)} (h : ss.map length = ts.map length)
    (pos : Nat) : starts pos ss = starts pos ts := by
  induction ss generalizing ts pos with
  | nil =>
    cases ts with
    | nil => rfl
    | cons t ts => simp at h
  | cons s ss ih =>
    cases ts with
    | nil => simp at h
    | cons t ts =>
      simp only [map_cons, cons.injEq] at h
      simp [starts, h.1, ih h.2]

/-- Every pointer of the index is the start of its segment. -/
theorem drop_start {ss : List (List α)} {k : Nat} (hk : k < ss.length) (after : List α) :
    ∃ p, (starts 0 ss)[k]? = some p ∧
      (ss.flatten ++ after).drop p = (ss.drop k).flatten ++ after := by
  have hsplit : ss.take k ++ ss.drop k = ss := take_append_drop k ss
  refine ⟨(ss.take k).flatten.length, ?_, ?_⟩
  · conv_lhs => rw [← hsplit]
    rw [starts_append, drop_eq_getElem_cons hk]
    simp [starts, hk.le]
  · have hflat : ss.flatten = (ss.take k).flatten ++ (ss.drop k).flatten := by
      rw [← flatten_append, hsplit]
    rw [hflat, append_assoc, drop_left]

end Segments
