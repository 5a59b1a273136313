import Mathlib.Tactic

/-! # Blocks written in pieces

A sender works through a sequence of blocks. Each block is handed over in pieces, as many
elements at a time as the other side takes, and the next block begins when nothing of the
current one is left. `Writes wire rest queued` relates the pieces handed over so far and what
is left of the current block to the blocks queued so far: the elements agree, and so do the
blocks that have begun. The kinds `κ` of blocks and the elements `α` are arbitrary.
-/

namespace Pieces

open List

variable {κ α : Type}

/-- A part of a block: the kind of the block, the number of its elements before this part, and
the elements. -/
structure Piece (κ α : Type) where
  src : κ
  off : Nat
  bytes : List α
  deriving DecidableEq

/-- A piece is handed over; an empty one leaves no trace. -/
def put (wire : List (Piece κ α)) (p : Piece κ α) : List (Piece κ α) :=
  if p.bytes.isEmpty then wire else wire ++ [p]

/-- The elements of the pieces. -/
def content (wire : List (Piece κ α)) : List α := wire.flatMap Piece.bytes

/-- The kinds of the blocks that begin in the pieces. -/
def started (wire : List (Piece κ α)) : List κ := (wire.filter (·.off = 0)).map Piece.src

/-- What is left of a block after `n` elements. -/
def Piece.after (b : Piece κ α) (n : Nat) : Piece κ α := ⟨b.src, b.off + n, b.bytes.drop n⟩

/-- The first `n` elements of what is left of a block. -/
def Piece.upTo (b : Piece κ α) (n : Nat) : Piece κ α := ⟨b.src, b.off, b.bytes.take n⟩

/-- The block that has not begun yet. -/
def Piece.pending (b : Piece κ α) : List κ := if b.off = 0 ∧ ¬ b.bytes.isEmpty then [b.src] else []

/-- The kinds of the blocks that have elements. -/
def kinds (queued : List (κ × List α)) : List κ :=
  (queued.filter (fun q => !q.2.isEmpty)).map Prod.fst

/-- The pieces and the rest of the current block make up the queued blocks. -/
structure Writes (wire : List (Piece κ α)) (rest : Piece κ α) (queued : List (κ × List α)) :
    Prop where
  content_eq : content wire ++ rest.bytes = queued.flatMap Prod.snd
  started_eq : started wire ++ rest.pending = kinds queued

theorem Piece.pending_of_nil {b : Piece κ α} (h : b.bytes = []) : b.pending = [] := by
  simp [Piece.pending, h]

theorem kinds_append (q r : List (κ × List α)) : kinds (q ++ r) = kinds q ++ kinds r := by
  simp [kinds]

section

variable (wire : List (Piece κ α)) (p : Piece κ α)
include wire p

theorem content_put : content (put wire p) = content wire ++ p.bytes := by
  unfold put
  split_ifs with h
  · simp [isEmpty_iff.mp h]
  · simp [content]

theorem started_put : started (put wire p) = started wire ++ p.pending := by
  unfold put
  split_ifs with h
  · simp [Piece.pending_of_nil (isEmpty_iff.mp h)]
  · by_cases h0 : p.off = 0 <;> simp [started, Piece.pending, h, h0]

theorem put_filter (f : Piece κ α → Bool) :
    (put wire p).filter f = if f p then put (wire.filter f) p else wire.filter f := by
  unfold put
  split_ifs <;> simp_all

end

namespace Writes

variable {wire : List (Piece κ α)} {rest : Piece κ α} {queued : List (κ × List α)}

theorem nil {rest : Piece κ α} (h : rest.bytes = []) : Writes [] rest [] where
  content_eq := by simp [content, h]
  started_eq := by simp [started, kinds, Piece.pending_of_nil h]

/-- Which block nothing is left of does not matter. -/
theorem rest_nil (h : Writes wire rest queued) {rest' : Piece κ α} (h0 : rest.bytes = [])
    (h1 : rest'.bytes = []) : Writes wire rest' queued where
  content_eq := by rw [h1, ← h0]; exact h.content_eq
  started_eq := by
    rw [Piece.pending_of_nil h1, ← Piece.pending_of_nil h0]; exact h.started_eq

/-- The next block is queued when nothing of the current one is left. -/
theorem queue (h : Writes wire rest queued) (h0 : rest.bytes = []) (k : κ) (bs : List α) :
    Writes wire ⟨k, 0, bs⟩ (queued ++ [(k, bs)]) where
  content_eq := by
    have hc := h.content_eq
    rw [h0, append_nil] at hc
    simp [hc]
  started_eq := by
    have hs := h.started_eq
    rw [Piece.pending_of_nil h0, append_nil] at hs
    rw [hs]
    cases bs <;> simp [Piece.pending, kinds]

theorem pending_upTo_after (b : Piece κ α) (n : Nat) :
    (b.upTo n).pending ++ (b.after n).pending = b.pending := by
  rcases Nat.eq_zero_or_pos n with rfl | hn
  · simp [Piece.upTo, Piece.after, Piece.pending]
  · cases hb : b.bytes with
    | nil => simp [Piece.upTo, Piece.after, Piece.pending, hb]
    | cons x xs =>
      obtain ⟨m, rfl⟩ : ∃ m, n = m + 1 := ⟨n - 1, by omega⟩
      simp [Piece.upTo, Piece.after, Piece.pending]

variable (h : Writes wire rest queued)
include h

theorem send (n : Nat) : Writes (put wire (rest.upTo n)) (rest.after n) queued where
  content_eq := by
    rw [content_put, ← h.content_eq]
    simp [Piece.upTo, Piece.after]
  started_eq := by rw [started_put, append_assoc, pending_upTo_after, h.started_eq]

/-- A block that is handed over at once, past the queue. -/
theorem direct (h0 : rest.bytes = []) (k : κ) (bs : List α) :
    Writes (put wire ⟨k, 0, bs⟩) rest (queued ++ [(k, bs)]) := by
  have hq := (h.queue h0 k bs).send bs.length
  have he : (⟨k, 0, bs⟩ : Piece κ α).upTo bs.length = ⟨k, 0, bs⟩ := by simp [Piece.upTo]
  rw [he] at hq
  exact hq.rest_nil (by simp [Piece.after]) h0

theorem started_sublist : (started wire).Sublist (queued.map Prod.fst) := by
  have hkinds : (kinds queued).Sublist (queued.map Prod.fst) := filter_sublist.map _
  rw [← h.started_eq] at hkinds
  exact (sublist_append_left _ _).trans hkinds

/-- When nothing is left, exactly the queued blocks have been handed over. -/
theorem content_of_nil (h0 : rest.bytes = []) : content wire = queued.flatMap Prod.snd := by
  rw [← h.content_eq, h0, append_nil]

theorem started_of_nil (h0 : rest.bytes = []) : started wire = kinds queued := by
  rw [← h.started_eq, Piece.pending_of_nil h0, append_nil]

end Writes

end Pieces
