import CIcap.Arrays.ListSequence

/-! # The queue of accepted connections

The listener thread of a child puts the connections it accepts into a queue, and the worker threads
take them out. The queue of `proc_threads_queues.c` is a counter and a `ci_list_t`, and one mutex
protects both. The threads are modelled statement by statement: each has a program counter, and a
step lets one thread run up to its next access to the shared data. A thread that waits for the
mutex does not move.

`accepted` and `handed` record what the two functions have returned 1 for: the connection that
was put, and what was stored to the caller's connection, `none` where nothing was.
-/

namespace CIcap

open Links CList List

variable {α : Type}

/-- Where a thread stands in `put_to_queue` or `get_from_queue`. The last two of each are before the
unlock, with the result that is returned behind it. -/
inductive ConnPc (α : Type)
  | idle
  | putLock (con : α)
  | putCheck (con : α)
  | putPush (con : α)
  | putCount (con : α)
  | putUnlock (con : α) (ret : Bool)
  | getLock
  | getCheck
  | getCount
  | getPop
  | getUnlock (con : Option (Option α))

/-- What a thread does next: call a function, or run on. `ok` tells whether the mutex can be locked
without an error, or whether there is memory for a new node. -/
inductive ConnAct (α : Type)
  | put (con : α)
  | get
  | run (ok : Bool)

structure ConnThreads (α : Type) where
  connections : CList α
  used : Nat
  warnSize : Nat
  mutex : Option Nat
  pcs : Nat → ConnPc α
  accepted : List α
  handed : List (Option α)
  crashed : Bool

/-- The list of connections copies its objects with `list_copy_connection`, which copies all of a
connection. -/
def connOpts : ListOpts α := { objSize := 1, copyFunc := some id, freeFunc := none, cmpFunc := none }

@[simp] theorem connOpts_moved (x : α) : (connOpts : ListOpts α).moved x = x := rfl

namespace ConnThreads

/-- `init_queue`, and no thread in one of the two functions. -/
def initQueue (size : Nat) : ConnThreads α :=
  ⟨.create, 0, size, none, fun _ => .idle, [], [], false⟩

def goto (s : ConnThreads α) (t : Nat) (pc : ConnPc α) : ConnThreads α :=
  { s with pcs := Function.update s.pcs t pc }

/-- `ci_thread_mutex_lock`: with an error the function returns -1. -/
def lock (s : ConnThreads α) (t : Nat) (pc : ConnPc α) (ok : Bool) : ConnThreads α :=
  if !ok then s.goto t .idle
  else if s.mutex = none then { s.goto t pc with mutex := some t }
  else s

/-- The statements of `put_to_queue` and `get_from_queue`. -/
def advance (s : ConnThreads α) (t : Nat) (ok : Bool) : ConnThreads α :=
  match s.pcs t with
  | .idle => s
  | .putLock con => s.lock t (.putCheck con) ok
  | .putCheck con =>
    if s.used = s.warnSize then s.goto t (.putUnlock con false) else s.goto t (.putPush con)
  | .putPush con =>
    -- whether the connection was added is not looked at
    match s.connections.pushBack connOpts con ok with
    | some (_, l) => { s.goto t (.putCount con) with connections := l }
    | none => { s with crashed := true }
  | .putCount con => { s.goto t (.putUnlock con true) with used := s.used + 1 }
  | .putUnlock con ret =>
    { s.goto t .idle with
      mutex := none
      accepted := if ret then s.accepted ++ [con] else s.accepted }
  | .getLock => s.lock t .getCheck ok
  | .getCheck => if s.used = 0 then s.goto t (.getUnlock none) else s.goto t .getCount
  | .getCount => { s.goto t .getPop with used := s.used - 1 }
  | .getPop =>
    match s.connections.pop connOpts with
    | some (con, l) => { s.goto t (.getUnlock (some con)) with connections := l }
    | none => { s with crashed := true }
  | .getUnlock con =>
    { s.goto t .idle with mutex := none, handed := s.handed ++ con.toList }

def step (s : ConnThreads α) : Nat × ConnAct α → ConnThreads α
  | (t, .run ok) => if s.crashed then s else s.advance t ok
  | (t, .put con) =>
    match s.pcs t with
    | .idle => s.goto t (.putLock con)
    | _ => s
  | (t, .get) =>
    match s.pcs t with
    | .idle => s.goto t .getLock
    | _ => s

/-- The connections in the list, from `items` on. -/
def queued (s : ConnThreads α) : Option (List α) :=
  (s.connections.iterate (fun acc con => (acc ++ [con], false)) []).map Prod.fst

/-- The condition on a step: where a connection is added, the list has a node of its trash or the
memory for a new one. -/
def Stored (s : ConnThreads α) : Nat × ConnAct α → Prop
  | (t, .run ok) =>
    match s.pcs t with
    | .putPush _ => s.connections.trash ≠ none ∨ ok = true
    | _ => True
  | _ => True

end ConnThreads

/-! ## What the mutex protects -/

namespace ConnPc

def critical : ConnPc α → Bool
  | idle | putLock _ | getLock => false
  | putCheck _ | putPush _ | putCount _ | putUnlock _ _ => true
  | getCheck | getCount | getPop | getUnlock _ => true

/-- The connection that is in the list but not yet recorded as accepted. -/
def accepting : ConnPc α → List α
  | putCount con | putUnlock con true => [con]
  | _ => []

/-- The connection that is out of the list but not yet recorded as handed out. -/
def handing : ConnPc α → List (Option α)
  | getUnlock con => con.toList
  | _ => []

/-- How far the counter is behind the list. -/
def behind : ConnPc α → Nat
  | putCount _ | getPop => 1
  | _ => 0

end ConnPc

/-- The shared data while its owner stands at `pc`: the list is in order, the counter is as far
behind it as `pc` says, and what was accepted is what was handed out and what is in the list. -/
def Balanced (pc : ConnPc α) (l : CList α) (used : Nat) (accepted : List α)
    (handed : List (Option α)) : Prop :=
  ∃ nodes ts, Rep l nodes ts ∧ used + pc.behind = nodes.length ∧
    (accepted ++ pc.accepting).map some = handed ++ pc.handing ++ (nodes.map Prod.snd).map some

variable {l : CList α} {used : Nat} {accepted : List α} {handed : List (Option α)}

theorem Balanced.push {con : α} {ok : Bool} (h : Balanced (.putPush con) l used accepted handed)
    (hok : l.trash ≠ none ∨ ok = true) :
    ∃ x l', l.pushBack connOpts con ok = some (x, l') ∧
      Balanced (.putCount con) l' used accepted handed := by
  obtain ⟨nodes, ts, hrep, hused, hall⟩ := h
  rcases pushBack_spec connOpts con ok hrep with ⟨hg, hfail⟩ | ⟨a, ts', l', hpush, hrep'⟩
  · -- the push fails only with an empty trash and without memory
    rcases hok with htrash | hg'
    · exact absurd (trash_of_pushBack hfail) htrash
    · rw [hg] at hg'
      cases hg'
  · refine ⟨_, l', hpush, nodes ++ [(a, con)], ts', hrep', ?_, ?_⟩
    · simpa [ConnPc.behind] using hused
    · have hall' : accepted.map some = handed ++ (nodes.map Prod.snd).map some := by
        simpa [ConnPc.accepting, ConnPc.handing] using hall
      simp only [ConnPc.accepting, ConnPc.handing, map_append, map_cons, map_nil,
        append_nil, hall', append_assoc]

/-- The first connection is taken out of a list that is not empty. -/
theorem Balanced.pop (h : Balanced .getPop l used accepted handed) :
    ∃ con l', l.pop connOpts = some (con, l') ∧
      Balanced (.getUnlock (some con)) l' used accepted handed := by
  obtain ⟨nodes, ts, hrep, hused, hall⟩ := h
  obtain ⟨l', ts', hpop, hrep'⟩ := pop_spec (o := connOpts) hrep
  cases nodes with
  | nil => simp [ConnPc.behind] at hused
  | cons n nodes =>
    refine ⟨_, l', hpop, nodes, ts', hrep', ?_, ?_⟩
    · simpa [ConnPc.behind] using hused
    · simpa [ConnPc.accepting, ConnPc.handing] using hall

/-- The data is as it should be for the next program counter too. -/
theorem Balanced.congr {pc pc' : ConnPc α} (h : Balanced pc l used accepted handed)
    (hbehind : pc'.behind = pc.behind) (haccepting : pc'.accepting = pc.accepting)
    (hhanding : pc'.handing = pc.handing) : Balanced pc' l used accepted handed := by
  unfold Balanced at h ⊢
  rw [hbehind, haccepting, hhanding]
  exact h

namespace ConnThreads

variable {s : ConnThreads α} {t : Nat}

/-- The program counter of the thread that holds the mutex. -/
def holder (s : ConnThreads α) : ConnPc α :=
  match s.mutex with
  | none => .idle
  | some t => s.pcs t

structure Inv (s : ConnThreads α) : Prop where
  alive : s.crashed = false
  /-- The mutex is held by the one thread that is between lock and unlock. -/
  exclusive : ∀ t, (s.pcs t).critical = true ↔ s.mutex = some t
  balanced : Balanced s.holder s.connections s.used s.accepted s.handed
  /-- A connection is taken only where one is counted. -/
  counted : s.holder = .getCount → s.used ≠ 0

theorem inv_initQueue (size : Nat) : Inv (initQueue size : ConnThreads α) where
  alive := rfl
  exclusive _ := ⟨fun h => (nomatch h), fun h => (nomatch h)⟩
  balanced := ⟨[], [], rep_create, rfl, rfl⟩
  counted h := nomatch h

variable {pc : ConnPc α}

theorem holder_eq (hm : s.mutex = some t) (hpc : s.pcs t = pc) : s.holder = pc := by
  rw [holder, hm]
  exact hpc

section

variable (h : Inv s)
include h

/-- A thread without the mutex moves outside of the protected part. -/
theorem Inv.outside (hold : (s.pcs t).critical = false)
    (hnew : pc.critical = false) : Inv (s.goto t pc) := by
  have hne : s.mutex ≠ some t := by
    intro hm
    rw [(h.exclusive t).mpr hm] at hold
    cases hold
  have hsame : (s.goto t pc).holder = s.holder := by
    unfold holder goto
    cases hm : s.mutex with
    | none => rfl
    | some u =>
      have hu : u ≠ t := by
        rintro rfl
        exact hne hm
      exact Function.update_of_ne hu _ _
  refine ⟨h.alive, ?_, ?_, ?_⟩
  · intro u
    by_cases hu : u = t
    · subst hu
      simp [goto, hnew, hne]
    · simpa [goto, Function.update_of_ne hu] using h.exclusive u
  · rw [hsame]
    exact h.balanced
  · rw [hsame]
    exact h.counted

theorem Inv.locked (hfree : s.mutex = none)
    (hcrit : pc.critical = true) (hbehind : pc.behind = 0) (haccepting : pc.accepting = [])
    (hhanding : pc.handing = []) (hcount : pc ≠ .getCount) :
    Inv { s.goto t pc with mutex := some t } := by
  have hholder : ({ s.goto t pc with mutex := some t } : ConnThreads α).holder = pc :=
    holder_eq rfl (by simp [goto])
  have hbalanced := h.balanced
  rw [holder, hfree] at hbalanced
  refine ⟨h.alive, ?_, ?_, ?_⟩
  · intro u
    by_cases hu : u = t
    · subst hu
      simp [goto, hcrit]
    · have hold : (s.pcs u).critical = false := by
        rw [← Bool.not_eq_true, h.exclusive u, hfree]
        exact fun hm => nomatch hm
      simp [goto, Function.update_of_ne hu, hold, Ne.symm hu]
  · rw [hholder]
    unfold Balanced at hbalanced ⊢
    rw [hbehind, haccepting, hhanding]
    exact hbalanced
  · intro hc
    rw [hholder] at hc
    exact absurd hc hcount

/-- The thread with the mutex moves on and changes the data. -/
theorem Inv.inside (hm : s.mutex = some t) {l : CList α} {used : Nat}
    (hcrit : pc.critical = true) (hbalanced : Balanced pc l used s.accepted s.handed)
    (hcount : pc = .getCount → used ≠ 0) :
    Inv { s.goto t pc with connections := l, used := used } := by
  have hholder : ({ s.goto t pc with connections := l, used := used } : ConnThreads α).holder =
      pc :=
    holder_eq hm (by simp [goto])
  refine ⟨h.alive, ?_, ?_, ?_⟩
  · intro u
    by_cases hu : u = t
    · subst hu
      simp [goto, hcrit, hm]
    · simpa [goto, Function.update_of_ne hu] using h.exclusive u
  · rw [hholder]
    exact hbalanced
  · rw [hholder]
    exact hcount

/-- The thread with the mutex gives it back and records its result. -/
theorem Inv.unlocked (hm : s.mutex = some t) {accepted : List α} {handed : List (Option α)}
    (hbalanced : Balanced .idle s.connections s.used accepted handed) :
    Inv { s.goto t .idle with mutex := none, accepted := accepted, handed := handed } := by
  refine ⟨h.alive, ?_, hbalanced, fun hc => nomatch hc⟩
  intro u
  by_cases hu : u = t
  · subst hu
    simp [goto, ConnPc.critical]
  · have hne : s.mutex ≠ some u := by
      rw [hm]
      exact fun he => hu (Option.some.inj he).symm
    have hold : (s.pcs u).critical = false := by
      rw [← Bool.not_eq_true, h.exclusive u]
      exact hne
    simp [goto, Function.update_of_ne hu, hold]

/-! ## The steps -/

theorem Inv.lock (hold : (s.pcs t).critical = false) (pc : ConnPc α)
    (hcrit : pc.critical = true) (hbehind : pc.behind = 0) (haccepting : pc.accepting = [])
    (hhanding : pc.handing = []) (hcount : pc ≠ .getCount) (ok : Bool) :
    Inv (s.lock t pc ok) := by
  unfold ConnThreads.lock
  split
  · exact h.outside hold rfl
  · split
    · rename_i hfree
      exact h.locked hfree hcrit hbehind haccepting hhanding hcount
    · exact h

theorem Inv.advance {ok : Bool} (hok : s.Stored (t, .run ok)) : Inv (s.advance t ok) := by
  -- the thread holds the mutex exactly in the protected part
  have hmutex : ∀ pc, s.pcs t = pc → pc.critical = true → s.mutex = some t := by
    intro pc hpc hcrit
    rw [← h.exclusive t, hpc]
    exact hcrit
  have hdata : ∀ pc, s.pcs t = pc → pc.critical = true →
      Balanced pc s.connections s.used s.accepted s.handed := by
    intro pc hpc hcrit
    have hbalanced := h.balanced
    rwa [holder_eq (hmutex pc hpc hcrit) hpc] at hbalanced
  unfold ConnThreads.advance
  split
  · exact h
  · rename_i con hpc
    exact h.lock (by rw [hpc]; rfl) (.putCheck con) rfl rfl rfl rfl (fun hc => nomatch hc) ok
  · -- putCheck
    rename_i con hpc
    have hm := hmutex _ hpc rfl
    split
    all_goals exact h.inside hm rfl ((hdata _ hpc rfl).congr rfl rfl rfl) fun hc => nomatch hc
  · -- putPush
    rename_i con hpc
    have hroom : s.connections.trash ≠ none ∨ ok = true := by
      simpa only [Stored, hpc] using hok
    obtain ⟨x, l, hpush, hbalanced⟩ := (hdata _ hpc rfl).push hroom
    rw [hpush]
    exact h.inside (hmutex _ hpc rfl) rfl hbalanced fun hc => nomatch hc
  · -- putCount
    rename_i con hpc
    obtain ⟨nodes, ts, hrep, hused, hall⟩ := hdata _ hpc rfl
    exact h.inside (hmutex _ hpc rfl) rfl ⟨nodes, ts, hrep, hused, hall⟩ fun hc => nomatch hc
  · -- putUnlock
    rename_i con ret hpc
    obtain ⟨nodes, ts, hrep, hused, hall⟩ := hdata _ hpc rfl
    cases ret with
    | false => exact h.unlocked (hmutex _ hpc rfl) ⟨nodes, ts, hrep, hused, hall⟩
    | true =>
      refine h.unlocked (hmutex _ hpc rfl) ⟨nodes, ts, hrep, hused, ?_⟩
      simpa [goto, ConnPc.accepting, ConnPc.handing] using hall
  · rename_i hpc
    exact h.lock (by rw [hpc]; rfl) .getCheck rfl rfl rfl rfl (fun hc => nomatch hc) ok
  · -- getCheck
    rename_i hpc
    have hm := hmutex _ hpc rfl
    split
    · exact h.inside hm rfl ((hdata _ hpc rfl).congr rfl rfl rfl) fun hc => nomatch hc
    · rename_i hused
      exact h.inside hm rfl ((hdata _ hpc rfl).congr rfl rfl rfl) fun _ => hused
  · -- getCount
    rename_i hpc
    have hm := hmutex _ hpc rfl
    have hpos := h.counted (holder_eq hm hpc)
    obtain ⟨nodes, ts, hrep, hused, hall⟩ := hdata _ hpc rfl
    refine h.inside hm rfl ⟨nodes, ts, hrep, ?_, hall⟩ fun hc => nomatch hc
    simp only [ConnPc.behind] at hused ⊢
    omega
  · -- getPop
    rename_i hpc
    obtain ⟨con, l, hpop, hbalanced⟩ := (hdata _ hpc rfl).pop
    rw [hpop]
    exact h.inside (hmutex _ hpc rfl) rfl hbalanced fun hc => nomatch hc
  · -- getUnlock
    rename_i con hpc
    obtain ⟨nodes, ts, hrep, hused, hall⟩ := hdata _ hpc rfl
    refine h.unlocked (hmutex _ hpc rfl) ⟨nodes, ts, hrep, hused, ?_⟩
    simpa [goto, ConnPc.accepting, ConnPc.handing] using hall

theorem Inv.step {e : Nat × ConnAct α} (hok : s.Stored e) : Inv (s.step e) := by
  obtain ⟨t, act⟩ := e
  unfold ConnThreads.step
  cases act with
  | run ok =>
    dsimp only
    rw [if_neg (by simp [h.alive])]
    exact h.advance hok
  | put con | get =>
    dsimp only
    split
    · rename_i hpc
      exact h.outside (by rw [hpc]; rfl) rfl
    · exact h

end

/-! ## The queue hands out what it accepts -/

theorem foldUntil_append (xs : List α) (acc : List α) :
    foldUntil (fun acc con => (acc ++ [con], false)) acc xs = acc ++ xs := by
  induction xs generalizing acc with
  | nil => exact (append_nil acc).symm
  | cons x xs ih =>
    rw [foldUntil, ih, append_assoc]
    rfl

/-- Two threads put connections, a third one takes one, and each runs to its end. -/
def threeThreads : List (Nat × ConnAct Nat) :=
  [(1, .put 10), (2, .put 20), (1, .run true), (2, .run true), (1, .run true), (1, .run true),
    (3, .get), (1, .run true), (1, .run true), (3, .run true), (2, .run true), (3, .run true),
    (3, .run true), (3, .run true), (3, .run true), (2, .run true), (2, .run true), (2, .run true),
    (2, .run true), (2, .run true)]

instance (s : ConnThreads α) (e : Nat × ConnAct α) : Decidable (s.Stored e) := by
  obtain ⟨t, act⟩ := e
  cases act with
  | run ok =>
    unfold Stored
    dsimp only
    split <;> infer_instance
  | put con => exact .isTrue trivial
  | get => exact .isTrue trivial

end ConnThreads

end CIcap
