import CIcap.Lib.Machine

/-! # Options handlers

`run_services_option_handlers` of `service.c` walks over the options handlers of a service with
`ci_list_first` and `ci_list_next`, which keep the position of the walk in the list; all OPTIONS requests
to the service share it. A pointer to a node is modelled by the handlers from the node on, `NULL` by the
empty list. A step of a request is one access to the list or the call of a handler.
-/

namespace CIcap

open List

variable {ρ : Type}

/-- `struct ci_option_handler`; the function says whether it returns `CI_OK`. -/
structure OptionHandler (ρ : Type) where
  name : String
  handler : Option (ρ → Bool)

/-- The members of `ci_list_t` that a walk uses. -/
structure HandlersList (ρ : Type) where
  cursor : List (OptionHandler ρ)
  tmp : List (OptionHandler ρ)

variable (items : List (OptionHandler ρ)) (l : HandlersList ρ)

/-- Where a request is in `run_services_option_handlers`. -/
inductive WalkPc (ρ : Type) where
  | first
  | handle (oh : OptionHandler ρ)
  /-- `list->tmp = list->cursor` -/
  | next
  /-- `list->cursor = list->cursor->next` -/
  | advance
  /-- `return list->tmp->item` -/
  | take
  | done (ok : Bool)
  /-- a null pointer was followed -/
  | fault

def WalkPc.walking : WalkPc ρ → Bool
  | .first | .done _ | .fault => false
  | _ => true

def WalkPc.isDone : WalkPc ρ → Bool
  | .done _ => true
  | _ => false

/-- A request, with the handlers it has run and the number of its steps. -/
structure OptionsWalk (ρ : Type) where
  req : ρ
  pc : WalkPc ρ := .first
  ran : List (OptionHandler ρ) := []
  steps : Nat := 0

namespace OptionsWalk

def goto (w : OptionsWalk ρ) (pc : WalkPc ρ) : OptionsWalk ρ := { w with pc, steps := w.steps + 1 }

/-- The next step of a request. -/
def next (w : OptionsWalk ρ) : HandlersList ρ × OptionsWalk ρ :=
  match w.pc with
  | .first =>
    match items with
    | [] => (l, w.goto (.done true))
    | oh :: rest => ({ l with cursor := rest }, w.goto (.handle oh))
  | .handle oh =>
    match oh.handler with
    | none => (l, w.goto .next)
    | some f => (l, { w with ran := w.ran ++ [oh] }.goto (if f w.req then .next else .done false))
  | .next => ({ l with tmp := l.cursor }, w.goto (if l.cursor.isEmpty then .done true else .advance))
  | .advance =>
    match l.cursor with
    | [] => (l, w.goto .fault)
    | _ :: rest => ({ l with cursor := rest }, w.goto .take)
  | .take =>
    match l.tmp with
    | [] => (l, w.goto .fault)
    | oh :: _ => (l, w.goto (.handle oh))
  | .done ok => (l, w.goto (.done ok))
  | .fault => (l, w.goto .fault)

end OptionsWalk

/-- The list and the requests to the service. -/
structure OptionsState (ρ : Type) where
  list : HandlersList ρ
  walks : List (OptionsWalk ρ)

namespace OptionsState

/-- The request number `k` takes a step. -/
def step (s : OptionsState ρ) (k : Nat) : OptionsState ρ :=
  match s.walks[k]? with
  | none => s
  | some w => ⟨(w.next items s.list).1, s.walks.set k (w.next items s.list).2⟩

/-- No other request is on its way through the list. -/
def Alone (s : OptionsState ρ) (k : Nat) : Prop :=
  ∀ w ∈ s.walks.eraseIdx k, w.pc.walking = false

instance (s : OptionsState ρ) (k : Nat) : Decidable (s.Alone k) := List.decidableBAll _ _

end OptionsState

/-- The handlers a request has to run: each one up to the first that fails. -/
def handlersRun (req : ρ) : List (OptionHandler ρ) → List (OptionHandler ρ)
  | [] => []
  | oh :: rest =>
    match oh.handler with
    | none => handlersRun req rest
    | some f => oh :: (if f req then handlersRun req rest else [])

namespace OptionsWalk

/-- The handlers that are left to a request alone in the list are behind the cursor, and each takes
four steps. -/
def Inv (w : OptionsWalk ρ) : Prop :=
  let left := fun rest => w.ran ++ handlersRun w.req rest = handlersRun w.req items
  match w.pc with
  | .first => w.ran = [] ∧ w.steps = 0
  | .handle oh => left (oh :: l.cursor) ∧ w.steps + 4 * l.cursor.length + 3 ≤ 4 * items.length
  | .next => left l.cursor ∧ w.steps + 4 * l.cursor.length + 2 ≤ 4 * items.length
  | .advance => l.cursor ≠ [] ∧ l.tmp = l.cursor ∧ left l.cursor ∧
      w.steps + 4 * l.cursor.length + 1 ≤ 4 * items.length
  | .take => ∃ oh, l.tmp = oh :: l.cursor ∧ left l.tmp ∧
      w.steps + 4 * l.cursor.length + 4 ≤ 4 * items.length
  | .done _ => w.ran = handlersRun w.req items
  | .fault => False

variable {items l} {w : OptionsWalk ρ}

theorem Inv.next (h : w.Inv items l) : (w.next items l).2.Inv items (w.next items l).1 := by
  obtain ⟨cursor, tmp⟩ := l
  obtain ⟨req, pc, ran, steps⟩ := w
  unfold OptionsWalk.next goto
  cases pc with dsimp only [Inv] at h ⊢
  | first =>
    obtain ⟨rfl, rfl⟩ := h
    cases items with
    | nil => rfl
    | cons oh rest => exact ⟨rfl, by simp only [length_cons]; omega⟩
  | handle oh =>
    obtain ⟨name, _ | f⟩ := oh
    · exact ⟨h.1, by simp only; omega⟩
    · dsimp only [handlersRun] at h ⊢
      cases hok : f req with rw [hok] at h
      | true => exact ⟨(append_assoc ..).trans h.1, by omega⟩
      | false => exact h.1
  | next =>
    cases cursor with
    | nil => exact (append_nil _).symm.trans h.1
    | cons oh rest => exact ⟨cons_ne_nil _ _, rfl, h.1, by simp only [length_cons] at h ⊢; omega⟩
  | advance =>
    obtain ⟨hne, rfl, hleft, hsteps⟩ := h
    cases tmp with
    | nil => exact absurd rfl hne
    | cons oh rest => exact ⟨oh, rfl, hleft, by simp only [length_cons] at hsteps ⊢; omega⟩
  | take =>
    obtain ⟨oh, rfl, hleft, hsteps⟩ := h
    exact ⟨hleft, by simp only; omega⟩
  | done ok => exact h

/-- What another request does to the list does not matter to one that is not in it. -/
theorem Inv.frame (h : w.Inv items l) (hw : w.pc.walking = false) (l' : HandlersList ρ) :
    w.Inv items l' := by
  obtain ⟨req, pc, ran, steps⟩ := w
  cases pc <;> first | exact h | cases hw

end OptionsWalk

/-- **Handlers run once and in order.** In every interleaving of OPTIONS requests in which a request moves
only while no other one is in the list, a request that is done has run every handler in order, up to the
first that fails, and none twice; before that it has run a front of them, and it is done after four steps
for each handler and one more. -/
theorem options_handlers_run (reqs : List ρ) (ks : List Nat)
    (hok : Machine.AllSteps (OptionsState.step items) OptionsState.Alone
      ⟨l, reqs.map fun req => { req }⟩ ks) (k : Nat) (w : OptionsWalk ρ)
    (hw : (Machine.run (OptionsState.step items) ⟨l, reqs.map fun req => { req }⟩ ks).walks[k]? = some w) :
    if w.pc.isDone then w.ran = handlersRun w.req items
    else w.steps ≤ 4 * items.length ∧ w.ran <+: handlersRun w.req items := by
  have hinv := Machine.run_inv (P := fun s => ∀ k w, s.walks[k]? = some w → w.Inv items s.list)
    (fun s j hs halone k w hw => ?_) ?_ hok k w hw
  · obtain ⟨req, pc, ran, steps⟩ := w
    cases pc with dsimp only [OptionsWalk.Inv] at hinv
    | first => exact ⟨by simp only; omega, hinv.1 ▸ nil_prefix⟩
    | handle oh | next => exact ⟨by simp only; omega, _, hinv.1⟩
    | advance => exact ⟨by simp only; omega, _, hinv.2.2.1⟩
    | take =>
      obtain ⟨oh, -, hleft, hsteps⟩ := hinv
      exact ⟨by simp only; omega, _, hleft⟩
    | done ok => exact hinv
  · unfold OptionsState.step at hw ⊢
    cases hj : s.walks[j]? with rw [hj] at hw
    | none => exact hs k w hw
    | some v =>
      rcases eq_or_ne j k with rfl | hne
      · rw [getElem?_set_self (List.getElem?_eq_some_iff.mp hj).1] at hw
        exact Option.some.inj hw ▸ (hs j v hj).next
      · rw [getElem?_set_ne hne] at hw
        exact (hs k w hw).frame (halone w (mem_eraseIdx_iff_getElem?.mpr ⟨k, hne.symm, hw⟩)) _
  · intro k w hw
    rw [getElem?_map, Option.map_eq_some_iff] at hw
    obtain ⟨req, -, rfl⟩ := hw
    exact ⟨rfl, rfl⟩

def twoHandlers : List (OptionHandler Unit) :=
  [⟨"a", some fun _ => true⟩, ⟨"b", some fun _ => true⟩]

/-- Two requests to a service with two handlers. -/
def twoRequests (ks : List Nat) : OptionsState Unit :=
  Machine.run (OptionsState.step twoHandlers) ⟨⟨[], []⟩, [(), ()].map fun req => { req }⟩ ks

/-- One request after the other. -/
theorem options_handlers_run_two :
    ∃ w, (twoRequests (replicate 9 0 ++ replicate 9 1)).walks[1]? = some w ∧ w.ran = twoHandlers := by
  obtain ⟨w, hw, hdone⟩ := Option.map_eq_some_iff.mp (show
    ((twoRequests (replicate 9 0 ++ replicate 9 1)).walks[1]?).map (·.pc.isDone) = some true by
      decide +kernel)
  have h := options_handlers_run _ _ _ _ (by decide +kernel) 1 w hw
  rw [if_pos hdone] at h
  exact ⟨w, hw, h⟩

/-- A second request that starts while the first one is on its way makes it run a handler twice. -/
theorem handler_run_twice :
    ((twoRequests [0, 0, 0, 0, 0, 1, 0, 0, 0, 0, 0]).walks[0]?).map (fun w => w.ran.map (·.name)) =
      some ["a", "b", "b"] ∧ (handlersRun () twoHandlers).map (·.name) = ["a", "b"] := by
  decide +kernel

end CIcap
