import CIcap.Lib.Machine

/-! # Queues that move several elements at a time

An operation on such a queue offers elements, of which a front part is accepted, or asks for
elements and gets some from the front of the queue. What it did is an `Event`. `Moves` says that
an event loses, repeats and reorders nothing; `Bounded` says exactly what a queue of a given
capacity does. An object with a state of its own is such a queue when its operations move its
content in this way; the law of a whole run follows from that of one operation (`conserve`).
-/

namespace Fifo

open List

variable {α σ ι : Type}

/-- What an operation did: of `data` it accepted the first `n`, or it returned `out` when `size`
elements were asked for. -/
inductive Event (α : Type) where
  | wrote (data : List α) (n : Nat)
  | got (size : Nat) (out : List α)

/-- The elements an operation accepted. -/
def Event.accepted : Event α → List α
  | wrote data n => data.take n
  | got _ _ => []

/-- The elements an operation returned. -/
def Event.returned : Event α → List α
  | wrote _ _ => []
  | got _ out => out

/-- The accepted elements come in at the end, the returned ones go out at the front. -/
def Moves (q : List α) (e : Event α) (q' : List α) : Prop := q ++ e.accepted = e.returned ++ q'

/-- An operation on a queue of capacity `cap`: a write accepts what fits or less, but something
where something fits; a read returns all that is asked for and there. -/
inductive Bounded (cap : Nat) : List α → Event α → List α → Prop
  | write {q data : List α} {n : Nat} : n ≤ data.length → q.length + n ≤ cap →
      (data ≠ [] → q.length < cap → 0 < n) → Bounded cap q (.wrote data n) (q ++ data.take n)
  | read {q : List α} {size : Nat} : Bounded cap q (.got size (q.take size)) (q.drop size)

theorem Bounded.moves {cap : Nat} {q q' : List α} {e : Event α} (h : Bounded cap q e q') :
    Moves q e q' := by
  cases h with
  | write => rfl
  | read =>
    unfold Moves Event.accepted Event.returned
    rw [append_nil, take_append_drop]

/-! ## Runs -/

/-- What the operations of a run did, one after the other. -/
def trace (op : σ → ι → σ × Event α) : σ → List ι → List (Event α)
  | _, [] => []
  | s, i :: is => (op s i).2 :: trace op (op s i).1 is

/-- The state after the operations of a run. -/
def final (op : σ → ι → σ × Event α) : σ → List ι → σ := Machine.run (fun s i => (op s i).1)

theorem trace_append (op : σ → ι → σ × Event α) (s : σ) (is js : List ι) :
    trace op s (is ++ js) = trace op s is ++ trace op (final op s is) js := by
  induction is generalizing s with
  | nil => rfl
  | cons i is ih => exact congrArg ((op s i).2 :: ·) (ih (op s i).1)

/-- **Conservation.** When every operation moves the content, a run returns the content and the
elements it accepted, in order, as far as they are not in the content at its end. -/
theorem conserve {op : σ → ι → σ × Event α} {content : σ → List α} {I : σ → Prop}
    {ok : σ → ι → Prop}
    (hstep : ∀ s i, I s → ok s i → I (op s i).1 ∧ Moves (content s) (op s i).2 (content (op s i).1))
    {s : σ} (hs : I s) {is : List ι} (hok : Machine.AllSteps (fun s i => (op s i).1) ok s is) :
    I (final op s is) ∧ content s ++ (trace op s is).flatMap Event.accepted =
      (trace op s is).flatMap Event.returned ++ content (final op s is) := by
  induction is generalizing s with
  | nil => exact ⟨hs, by simp [trace, final, Machine.run]⟩
  | cons i is ih =>
    obtain ⟨hi, hmove⟩ := hstep s i hs hok.1
    obtain ⟨hinv, hrest⟩ := ih hi hok.2
    refine ⟨hinv, ?_⟩
    calc content s ++ (trace op s (i :: is)).flatMap Event.accepted
        = (content s ++ (op s i).2.accepted) ++
            (trace op (op s i).1 is).flatMap Event.accepted := by simp [trace]
      _ = (op s i).2.returned ++ (content (op s i).1 ++
            (trace op (op s i).1 is).flatMap Event.accepted) := by rw [hmove, append_assoc]
      _ = (op s i).2.returned ++ ((trace op (op s i).1 is).flatMap Event.returned ++
            content (final op (op s i).1 is)) := by rw [hrest]
      _ = (trace op s (i :: is)).flatMap Event.returned ++ content (final op s (i :: is)) := by
            simp [trace, final, Machine.run]

end Fifo
