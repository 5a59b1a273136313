import Mathlib.Tactic

/-! # Machines driven by a list of inputs

A machine is a total step function `step : σ → ι → σ`. What the environment decides in a step
(how many bytes a read returns, which socket is ready, …) is the input `ι` of the step, so a
schedule is a list of inputs and a statement about every schedule is a statement about every
list. An invariant of the steps holds after a run (`run_inv`).
-/

namespace Machine

variable {σ τ ι : Type*}

/-- The state after a list of inputs. -/
def run (step : σ → ι → σ) : σ → List ι → σ
  | s, [] => s
  | s, i :: is => run step (step s i) is

/-- Every step of a run meets `ok`, a condition on the state before the step and its input. -/
def AllSteps (step : σ → ι → σ) (ok : σ → ι → Prop) : σ → List ι → Prop
  | _, [] => True
  | s, i :: is => ok s i ∧ AllSteps step ok (step s i) is

instance AllSteps.decidable {step : σ → ι → σ} {ok : σ → ι → Prop} [∀ s i, Decidable (ok s i)]
    (s : σ) (is : List ι) : Decidable (AllSteps step ok s is) := by
  induction is generalizing s with
  | nil => exact .isTrue trivial
  | cons i is ih => exact @instDecidableAnd _ _ _ (ih (step s i))

variable {step : σ → ι → σ} {ok : σ → ι → Prop} {s : σ} {is : List ι} {P : σ → Prop}

variable {ok' : σ → ι → Prop}

theorem AllSteps.imp (h : ∀ s i, ok s i → ok' s i) (hs : AllSteps step ok s is) :
    AllSteps step ok' s is := by
  induction is generalizing s with
  | nil => trivial
  | cons i is ih => exact ⟨h s i hs.1, ih hs.2⟩

/-- Steps that meet one condition meet another one in the states of an invariant. -/
theorem AllSteps.imp_of_inv
    (hstep : ∀ s i, P s → ok s i → ok' s i ∧ P (step s i)) (hs : P s) (hok : AllSteps step ok s is) :
    AllSteps step ok' s is := by
  induction is generalizing s with
  | nil => trivial
  | cons i is ih =>
    have hi := hstep s i hs hok.1
    exact ⟨hi.1, ih hi.2 hok.2⟩

theorem allSteps_true (step : σ → ι → σ) (s : σ) (is : List ι) :
    AllSteps step (fun _ _ => True) s is := by
  induction is generalizing s with
  | nil => trivial
  | cons i is ih => exact ⟨trivial, ih (step s i)⟩

theorem AllSteps.take (h : AllSteps step ok s is) (n : Nat) : AllSteps step ok s (is.take n) := by
  induction is generalizing s n with
  | nil => simpa using h
  | cons i is ih =>
    cases n with
    | zero => trivial
    | succ n => exact ⟨h.1, ih h.2 n⟩

/-- Two conditions that agree in the states of an invariant, which the steps that meet the first
one preserve, agree on runs. -/
theorem allSteps_congr
    (hiff : ∀ s i, P s → (ok s i ↔ ok' s i)) (hstep : ∀ s i, P s → ok s i → P (step s i))
    (hs : P s) (is : List ι) : AllSteps step ok s is ↔ AllSteps step ok' s is := by
  induction is generalizing s with
  | nil => exact Iff.rfl
  | cons i is ih =>
    constructor
    · rintro ⟨hi, hrest⟩
      exact ⟨(hiff s i hs).mp hi, (ih (hstep s i hs hi)).mp hrest⟩
    · rintro ⟨hi, hrest⟩
      have hok := (hiff s i hs).mpr hi
      exact ⟨hok, (ih (hstep s i hs hok)).mpr hrest⟩

/-- Where not every step meets `ok` there is a first one that does not. -/
theorem first_failure (h : ¬ AllSteps step ok s is) :
    ∃ n i, AllSteps step ok s (is.take n) ∧ is[n]? = some i ∧ ¬ ok (run step s (is.take n)) i := by
  induction is generalizing s with
  | nil => exact absurd trivial h
  | cons i is ih =>
    by_cases hi : ok s i
    · obtain ⟨n, j, hpre, hn, hbad⟩ := ih (s := step s i) fun hrest => h ⟨hi, hrest⟩
      exact ⟨n + 1, j, ⟨hi, hpre⟩, by simpa using hn, hbad⟩
    · exact ⟨0, i, trivial, rfl, hi⟩

/-- **Invariants.** What every step that meets `ok` preserves holds after every run whose
steps all meet `ok`. -/
theorem run_inv (hstep : ∀ s i, P s → ok s i → P (step s i)) (hs : P s)
    (hok : AllSteps step ok s is) : P (run step s is) := by
  induction is generalizing s with
  | nil => exact hs
  | cons i is ih => exact ih (hstep s i hs hok.1) hok.2

theorem run_inv_all (hstep : ∀ s i, P s → P (step s i))
    (hs : P s) (is : List ι) : P (run step s is) := by
  induction is generalizing s with
  | nil => exact hs
  | cons i is ih => exact ih (hstep s i hs)

/-- **Always.** Where `ok` says exactly which steps keep `P` (in the states of an invariant `I`, which
these steps keep too), `P` holds after every part of a run exactly if all steps of the run meet
`ok`. -/
theorem always_iff {I : σ → Prop}
    (hinv : ∀ s i, I s → P s → ok s i → I (step s i)) (hiff : ∀ s i, I s → P s → (P (step s i) ↔ ok s i))
    (hI : I s) (hP : P s) (is : List ι) :
    (∀ n, P (run step s (is.take n))) ↔ AllSteps step ok s is := by
  induction is generalizing s with
  | nil => simp [run, hP, AllSteps]
  | cons i is ih =>
    constructor
    · intro hall
      have hnext : P (step s i) := by simpa [run] using hall 1
      have hok := (hiff s i hI hP).mp hnext
      refine ⟨hok, (ih (hinv s i hI hP hok) hnext).mp ?_⟩
      intro n
      exact hall (n + 1)
    · rintro ⟨hok, hrest⟩ n
      have hnext := (hiff s i hI hP).mpr hok
      cases n with
      | zero => exact hP
      | succ n => exact (ih (hinv s i hI hP hok) hnext).mpr hrest n

/-! ## Outputs -/

section Outputs

variable {ο κ : Type*}

/-- The outputs of a run of operations. -/
def outputs (op : σ → ι → σ × ο) : σ → List ι → List ο
  | _, [] => []
  | s, i :: is => (op s i).2 :: outputs op (op s i).1 is

/-- **Simulation.** Where related states give the same output to an input and to what `f` makes of
it, and related states again, the runs give the same outputs. -/
theorem outputs_eq {op : σ → ι → σ × ο} {spec : τ → κ → τ × ο} {R : σ → τ → Prop} {f : ι → κ}
    {ok : ι → Prop} (hstep : ∀ s t i, ok i → R s t →
      (op s i).2 = (spec t (f i)).2 ∧ R (op s i).1 (spec t (f i)).1)
    {s : σ} {t : τ} (h : R s t) (is : List ι) (hok : ∀ i ∈ is, ok i) :
    outputs op s is = outputs spec t (is.map f) := by
  induction is generalizing s t with
  | nil => rfl
  | cons i is ih =>
    obtain ⟨hout, hnext⟩ := hstep s t i (hok i List.mem_cons_self) h
    rw [List.map_cons, outputs, outputs, hout, ih hnext (List.forall_mem_cons.mp hok).2]

end Outputs

end Machine
