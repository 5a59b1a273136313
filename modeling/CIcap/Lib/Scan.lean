import Mathlib.Data.List.DropRight
import Mathlib.Tactic

/-! # Pointers that scan a buffer

A pointer into a buffer is a position in a list. `forward` and `backward` are the loops that move
it while the elements under it satisfy a predicate; the one that moves it back may leave the
buffer at its front. Between two separators they find the bounds of the trimmed text
(`exists_bounds`). `pieces` are the texts between separators.
-/

namespace Scan

open List

variable {α : Type} {p : α → Bool} {u l z : List α}

/-- `while (p(*s)) s++` -/
def forward (p : α → Bool) (buf : List α) (i : Nat) : Nat := i + ((buf.drop i).takeWhile p).length

/-- `e--; while (p(*e)) e--; e++`; `none` if the pointer leaves the buffer. -/
def backward (p : α → Bool) (buf : List α) : Nat → Option Nat
  | 0 => none
  | n + 1 => if (buf[n]?).any p then backward p buf n else some (n + 1)

/-- The list without the ends that satisfy `p`. -/
def trim (p : α → Bool) (l : List α) : List α := (l.dropWhile p).rdropWhile p

/-- The pointer stops where a run of elements ends. -/
theorem forward_run {c : α} (hl : ∀ x ∈ l, p x = true) (hc : p c = false) :
    forward p (u ++ (l ++ c :: z)) u.length = u.length + l.length := by
  rw [forward, drop_left, takeWhile_append_of_pos hl, takeWhile_cons_of_neg (by simp [hc]), append_nil]

theorem backward_le {buf : List α} {n t : Nat} (h : backward p buf n = some t) : t ≤ n := by
  induction n with
  | zero => cases h
  | succ n ih =>
    rw [backward] at h
    split_ifs at h
    · exact (ih h).trans n.le_succ
    · exact (Option.some.inj h).ge

theorem backward_run (hl : ∀ x ∈ l, p x = true) : backward p (u ++ (l ++ z)) (u.length + l.length) =
      backward p (u ++ (l ++ z)) u.length := by
  induction l using reverseRecOn generalizing z with
  | nil => rfl
  | append_singleton l x ih =>
    have hx : (u ++ (l ++ [x] ++ z))[u.length + l.length]? = some x := by simp
    rw [length_append, length_singleton, ← Nat.add_assoc, backward, hx, Option.any_some,
      if_pos (hl x (by simp)), append_assoc l]
    exact ih fun y hy => hl y (mem_append_left _ hy)

theorem trim_eq_nil_iff : trim p l = [] ↔ ∀ x ∈ l, p x = true := by
  rw [trim, rdropWhile_eq_nil_iff]
  constructor
  · intro h x hx
    rw [← takeWhile_append_dropWhile (p := p) (l := l), mem_append] at hx
    rcases hx with hx | hx
    · exact mem_takeWhile_imp hx
    · exact h x hx
  · intro h x hx
    exact h x ((dropWhile_suffix p).subset hx)

theorem mem_of_mem_trim {x : α} (h : x ∈ trim p l) : x ∈ l :=
  (dropWhile_suffix p).subset (( rdropWhile_prefix p _).subset h)

/-- **The bounds of a trimmed text.** From the two ends of `l` the pointers come to the two ends
of what is left of it. -/
theorem exists_bounds (h : trim p l ≠ []) : ∃ lead trail, l = lead ++ (trim p l ++ trail) ∧
    ∀ u z : List α, forward p (u ++ (l ++ z)) u.length = u.length + lead.length ∧
      backward p (u ++ (l ++ z)) (u.length + l.length) =
        some (u.length + (lead.length + (trim p l).length)) := by
  set core := trim p l
  set lead := l.takeWhile p
  set trail := (l.dropWhile p).rtakeWhile p
  have hdrop : l.dropWhile p = core ++ trail :=
    (rdropWhile_append_rtakeWhile (p := p) (l := l.dropWhile p)).symm
  have hl : l = lead ++ (core ++ trail) := by
    rw [← hdrop, takeWhile_append_dropWhile]
  refine ⟨lead, trail, hl, fun u z => ⟨?_, ?_⟩⟩
  · -- the first element of the rest does not satisfy `p`
    obtain ⟨c, core', hc⟩ := exists_cons_of_ne_nil h
    have hpc : p c = false := by
      have hhead : (l.dropWhile p).head? = some c := by
        rw [hdrop, hc]
        rfl
      have hnot := head?_dropWhile_not p l
      rw [hhead] at hnot
      simpa using hnot
    have hl' : l ++ z = lead ++ c :: (core' ++ (trail ++ z)) := by
      rw [hl, hc]
      simp
    rw [hl']
    exact forward_run (fun x hx => mem_takeWhile_imp hx) hpc
  · -- its last one does not either, and the trailing ones do
    obtain ⟨core', c, hc⟩ : ∃ core' c, core = core' ++ [c] :=
      ⟨core.dropLast, core.getLast h, (dropLast_append_getLast h).symm⟩
    have hpc : p c = false := by
      have hlast : ¬ p (core.getLast h) = true := rdropWhile_last_not p (l.dropWhile p) h
      have hget : core.getLast h = c := by
        simp only [hc, getLast_append_singleton]
      rw [hget] at hlast
      simpa using hlast
    have hbuf : u ++ (l ++ z) = (u ++ lead ++ core) ++ (trail ++ z) := by
      rw [hl]
      simp
    have hpos : u.length + l.length = (u ++ lead ++ core).length + trail.length := by
      rw [hl]
      simp only [length_append]
      omega
    have hstop : u ++ lead ++ core ++ (trail ++ z) = (u ++ lead ++ core') ++ c :: (trail ++ z) := by
      rw [hc]
      simp
    have hlen : (u ++ lead ++ core).length = (u ++ lead ++ core').length + 1 := by
      rw [hc]
      simp only [length_append, length_singleton]
      omega
    rw [hbuf, hpos, backward_run fun x hx => mem_rtakeWhile_imp hx, hstop, hlen,
      backward, if_neg (by simp [hpc]), ← hlen]
    simp only [length_append]
    congr 1
    omega

/-- Inside of the bounds another loop goes on to the end of `l`, if it does not stop before. -/
theorem forward_inside {r : α → Bool} (lead : List α) {mid : List α} {c : α}
    (hmid : ∀ x ∈ mid, r x = true) (hc : r c = false) :
    forward r (u ++ ((lead ++ mid) ++ c :: z)) (u.length + lead.length) =
      u.length + (lead ++ mid).length := by
  have hbuf : u ++ ((lead ++ mid) ++ c :: z) = (u ++ lead) ++ (mid ++ c :: z) := by
    simp
  rw [hbuf, ← length_append, forward_run hmid hc]
  simp only [length_append]
  omega

/-! ## Pieces -/

variable [DecidableEq α]

/-- The texts between separators. Where nothing follows the last separator there is no text. -/
def pieces (sep : α) (l : List α) : List (List α) :=
  if (l.splitOn sep).getLast? = some [] then (l.splitOn sep).dropLast else l.splitOn sep

@[simp] theorem pieces_nil (sep : α) : pieces sep ([] : List α) = [] := rfl

theorem pieces_append_cons {sep : α} (h : sep ∉ l) (rest : List α) :
    pieces sep (l ++ sep :: rest) = l :: pieces sep rest := by
  have hsplit : (l ++ sep :: rest).splitOn sep = l :: rest.splitOn sep := by
    rw [splitOn, splitOnP_append_cons l rest (by simp), ← splitOn, splitOn_eq_singleton h]
    rfl
  obtain ⟨q, qs, hq⟩ := exists_cons_of_ne_nil (splitOnP_ne_nil (· == sep) rest)
  have hrest : rest.splitOn sep = q :: qs := hq
  rw [pieces, pieces, hsplit, hrest, getLast?_cons_cons]
  split_ifs <;> rfl

/-- What follows a separator comes in pieces: nothing, one piece, or one and more behind a
separator. -/
theorem pieces_cases (sep : α) (l : List α) : l = [] ∨ (l ≠ [] ∧ sep ∉ l ∧ pieces sep l = [l]) ∨
      ∃ q rest, l = q ++ sep :: rest ∧ sep ∉ q ∧ pieces sep l = q :: pieces sep rest := by
  by_cases hnil : l = []
  · exact .inl hnil
  by_cases hmem : sep ∈ l
  · obtain ⟨q, rest, rfl, hq⟩ := eq_append_cons_of_mem hmem
    exact .inr (.inr ⟨q, rest, rfl, hq, pieces_append_cons hq rest⟩)
  · refine .inr (.inl ⟨hnil, hmem, ?_⟩)
    rw [pieces, splitOn_eq_singleton hmem]
    simpa using hnil

theorem mem_of_mem_pieces {sep x : α} {q : List α} (hq : q ∈ pieces sep l) (hx : x ∈ q) :
    x ∈ l := by
  induction hn : l.length using Nat.strong_induction_on generalizing l with
  | _ n ih =>
    rcases pieces_cases sep l with rfl | ⟨-, -, hone⟩ | ⟨r, rest, rfl, -, hmore⟩
    · cases hq
    · rw [hone, mem_singleton] at hq
      exact hq ▸ hx
    · rw [hmore, mem_cons] at hq
      rcases hq with rfl | hq
      · exact mem_append_left _ hx
      · refine mem_append_right _ (mem_cons_of_mem _ (ih rest.length ?_ hq rfl))
        rw [← hn, length_append, length_cons]
        omega

end Scan
