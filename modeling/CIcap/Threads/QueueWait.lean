import CIcap.Lib.Machine

/-! # Waiting for a connection

A worker thread that finds the queue of connections empty (`get_from_queue`, under `queue_mtx`) goes to
sleep on `queue_cond` (`wait_for_queue`, under `cond_mtx`). The listener puts a connection into the queue
under `queue_mtx` and signals the condition behind it, under no mutex. The workers run the same loop, so
of each place in it the number of workers that are there is kept.
-/

namespace CIcap

structure QueueWait where
  used : Nat
  /-- The listener has put a connection and has not signalled yet. -/
  signalling : Bool
  /-- The workers before `get_from_queue`. -/
  checking : Nat
  /-- The workers that have found the queue empty, before `ci_thread_cond_wait`. -/
  entering : Nat
  waiting : Nat
  serving : Nat
deriving DecidableEq

/-- The steps of the threads; `wake` is a wait that ends without a signal. -/
inductive QueueMove
  | put
  | signal
  | get
  | wait
  | wake
  | finish
deriving DecidableEq

namespace QueueWait

def init (workers : Nat) : QueueWait := ⟨0, false, workers, 0, 0, 0⟩

/-- One step of the listener or of a worker; a thread that is not there does not move. A signal with no
worker waiting is lost. -/
def step (warnSize : Nat) (s : QueueWait) : QueueMove → QueueWait
  | .put =>
    if s.signalling ∨ s.used = warnSize then s
    else { s with used := s.used + 1, signalling := true }
  | .signal =>
    if ¬ s.signalling then s
    else if s.waiting = 0 then { s with signalling := false }
    else { s with signalling := false, waiting := s.waiting - 1, checking := s.checking + 1 }
  | .get =>
    if s.checking = 0 then s
    else if s.used = 0 then { s with checking := s.checking - 1, entering := s.entering + 1 }
    else { s with used := s.used - 1, checking := s.checking - 1, serving := s.serving + 1 }
  | .wait =>
    if s.entering = 0 then s
    else { s with entering := s.entering - 1, waiting := s.waiting + 1 }
  | .wake =>
    if s.waiting = 0 then s
    else { s with waiting := s.waiting - 1, checking := s.checking + 1 }
  | .finish =>
    if s.serving = 0 then s
    else { s with serving := s.serving - 1, checking := s.checking + 1 }

/-- A connection is in the queue, there are idle workers and all of them wait, and no wake-up is on
its way. -/
def Lost (s : QueueWait) : Prop :=
  0 < s.used ∧ 0 < s.waiting ∧ s.checking = 0 ∧ s.entering = 0 ∧ s.signalling = false

instance (s : QueueWait) : Decidable s.Lost := inferInstanceAs (Decidable (_ ∧ _))

/-- The condition on a step: a worker goes to sleep only while the queue is empty. -/
def Keeps (s : QueueWait) (m : QueueMove) : Prop := m = .wait → s.used = 0

instance (s : QueueWait) (m : QueueMove) : Decidable (s.Keeps m) := inferInstanceAs (Decidable (_ → _))

/-- While a worker waits, each connection in the queue has a worker that is going to look for it. -/
def Inv (s : QueueWait) : Prop :=
  0 < s.waiting → s.used ≤ s.checking + s.entering + if s.signalling then 1 else 0

theorem inv_step {warnSize : Nat} {s : QueueWait} {m : QueueMove} (h : s.Inv) (hk : s.Keeps m) :
    (s.step warnSize m).Inv := by
  -- a connection that is taken or put takes or brings a worker or a signal with it
  unfold Inv at h ⊢
  cases m with
  | wait =>
    have hused : s.used = 0 := hk rfl
    simp only [step]
    split_ifs <;> simp [hused]
  | put | signal | get | wake | finish =>
    simp only [step]
    split_ifs <;> grind

/-- **No wake-up is lost.** In every interleaving in which workers go to sleep only while the queue is
empty, no state has a connection in the queue while all idle workers wait for a wake-up. -/
theorem no_lost_wakeup (warnSize workers : Nat) (moves : List QueueMove)
    (hk : Machine.AllSteps (step warnSize) Keeps (init workers) moves) (k : Nat) :
    ¬ (Machine.run (step warnSize) (init workers) (moves.take k)).Lost := by
  have hinit : (init workers).Inv := nofun
  have hinv := Machine.run_inv (fun _ _ => inv_step) hinit (hk.take k)
  rintro ⟨hused, hwaiting, hchecking, hentering, hsignal⟩
  have hle := hinv hwaiting
  rw [hchecking, hentering, hsignal] at hle
  exact Nat.not_le.mpr hused hle

theorem no_lost_wakeup_one : ¬ (Machine.run (step 8) (init 1) [.get, .wait, .put, .signal]).Lost :=
  no_lost_wakeup 8 1 [.get, .wait, .put, .signal] (by decide) 4

/-- The worker finds the queue empty, a connection is put and signalled, and the worker goes to sleep. -/
theorem wakeup_lost : (Machine.run (step 8) (init 1) [.get, .put, .signal, .wait]).Lost := by decide

end QueueWait

end CIcap
