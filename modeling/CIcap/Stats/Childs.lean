import CIcap.Lib.Machine
import CIcap.Stats.Block
import CIcap.Stats.Histogram

/-! # The children queue and its statistics

The parent process of the server and its children share one piece of memory. It has a slot for
each child (`child_shared_data_t`), a statistics block for each slot, one block for the history of
the children that are gone, the histograms and a few counters of the parent.

A child that was forked attaches the memory (`attach_childs_queue`), takes a free slot
(`register_child`), initialises the block of the slot (`ci_stat_attach_mem`) and then counts in it.
When it is gone the parent adds its block to the history and frees the slot (`remove_child`).
Nothing else touches the block of a slot: between `register_child` and `ci_stat_attach_mem` it
holds what its last owner left there.

The processes run in any order. A step of the system (`StatServer.step`) is one action of one of
them, so a list of `StatEvent`s is an interleaving.
-/

namespace CIcap

/-- `enum KILL_MODE`. -/
inductive KillMode
  | noKill
  | gracefully
  | immediately
deriving DecidableEq, Repr

/-- A slot of the queue with its statistics block and with what matters here of the process that
holds it: whether it has attached the block (its pointer `STATS` is set) and whether it is gone and
waits for the parent. -/
structure ChildSlot where
  pid : Nat
  toBeKilled : KillMode
  requests : Nat
  stats : MemBlock
  attached : Bool
  exited : Bool

/-- `struct server_statistics`. -/
structure ServerStatistics where
  startedChilds : Nat
  closedChilds : Nat
  crashedChilds : Nat
  historyRequests : Nat

structure ChildsQueue where
  slots : List ChildSlot
  statsHistory : MemBlock
  histoArea : List Histogram
  srvStats : ServerStatistics

namespace ChildsQueue

/-- `create_childs_queue`. -/
def create (types : List StatType) (histos : List HistoSpec) (size : Nat) : ChildsQueue where
  slots := List.replicate size ⟨0, .noKill, 0, .zeros types.length, false, false⟩
  statsHistory := .init types
  histoArea := histos.map .new
  srvStats := ⟨0, 0, 0, 0⟩

/-- `attach_childs_queue`: the histograms are laid out once more. -/
def attach (q : ChildsQueue) : ChildsQueue := { q with histoArea := q.histoArea.map .memInitialize }

def setSlot (q : ChildsQueue) (i : Nat) (c : ChildSlot) : ChildsQueue :=
  { q with slots := q.slots.set i c }

/-- `get_child_data`. The pid 0 marks a free slot, and no process has it. -/
def getChildData (q : ChildsQueue) (pid : Nat) : Option (Nat × ChildSlot) :=
  if pid = 0 then none
  else do
    let i ← q.slots.findIdx? (·.pid == pid)
    let c ← q.slots[i]?
    return (i, c)

/-- `register_child`: the first free slot, `none` without one. -/
def registerChild (q : ChildsQueue) (pid : Nat) : Option ChildsQueue := do
  let i ← q.slots.findIdx? (·.pid == 0)
  let c ← q.slots[i]?
  return q.setSlot i ⟨pid, .noKill, 0, c.stats, false, false⟩

/-- `announce_child`. -/
def announceChild (q : ChildsQueue) : ChildsQueue :=
  { q with srvStats := { q.srvStats with startedChilds := q.srvStats.startedChilds + 1 } }

/-- `remove_child`; `none` is the end of the parent in one of the assertions. -/
def removeChild (types : List StatType) (q : ChildsQueue) (pid : Nat) (status : Bool) :
    Option ChildsQueue :=
  match q.getChildData pid with
  | none => some q
  | some (i, c) =>
    if c.stats.check types then do
      let history ← q.statsHistory.merge types c.stats true q.srvStats.closedChilds
      return { q.setSlot i { c with pid := 0 } with
        statsHistory := history
        srvStats := { q.srvStats with
          historyRequests := q.srvStats.historyRequests + c.requests
          closedChilds := q.srvStats.closedChilds + 1
          crashedChilds := q.srvStats.crashedChilds + if status then 1 else 0 } }
    else none

/-- The slots that the reports look at. -/
def running (q : ChildsQueue) : List ChildSlot :=
  q.slots.filter fun c => c.pid != 0 && c.toBeKilled == .noKill

/-- `uint64_counters_sum`, the sum and the number of children. -/
def uint64CountersSum (q : ChildsQueue) (id : Nat) : UInt64 × Nat :=
  q.running.foldl (fun acc c => (acc.1 + c.stats.getCounter id, acc.2 + 1)) (0, 0)

/-- `ci_server_stat_uint64_get_global`; `none` is a failed assertion or a division by zero. -/
def uint64GetGlobal (types : List StatType) (q : ChildsQueue) (id : Nat) : Option UInt64 :=
  let (value, kids) := q.uint64CountersSum id
  let historyValue := q.statsHistory.getCounter id
  let closedKids := q.srvStats.closedChilds
  match types[id]? with
  | none => none
  | some .timeUs | some .timeMs | some .int64Mean =>
    if kids + closedKids = 0 then none
    else some (UInt64.ofNat
      ((value + historyValue * UInt64.ofNat closedKids).toNat / (kids + closedKids)))
  | some .int64 | some .kbs => some (value + historyValue)

/-- The loop of `ci_server_stat_get_all_stats` over the running children. -/
def mergeRunning (types : List StatType) : MemBlock → Nat → List ChildSlot → Option MemBlock
  | stats, _, [] => some stats
  | stats, kids, c :: cs => do
      let stats ← stats.merge types c.stats false kids
      mergeRunning types stats (kids + 1) cs

/-- `ci_server_stat_get_all_stats`. -/
def getAllStats (types : List StatType) (q : ChildsQueue) : Option MemBlock := do
  let stats ← mergeRunning types (.init types) 0 q.running
  stats.merge types q.statsHistory true q.running.length

end ChildsQueue

/-! ## The processes -/

/-- What ends the run of the server: a failed assertion of the parent, or a write outside the
memory a process may write to. -/
inductive StatHalt
  | abort
  | memory
deriving DecidableEq, Repr

inductive StatEvent
  /-- A child is forked and attaches the shared memory, the parent announces it. -/
  | start
  | register (pid : Nat)
  /-- The child runs `ci_stat_attach_mem`. -/
  | attach (pid : Nat)
  | request (pid : Nat)
  /-- The child changes the value of a statistics entry. -/
  | update (pid id : Nat) (n : UInt64)
  | histoUpdate (pid id : Nat) (value : UInt64)
  | mark (pid : Nat) (mode : KillMode)
  /-- The child ends, by itself or by a crash. -/
  | exit (pid : Nat)
  /-- The parent has waited for a child that is gone. -/
  | reap (pid : Nat) (status : Bool)

/-- The server with the record of what its children have counted. -/
structure StatServer where
  queue : ChildsQueue
  increments : List (Nat × UInt64)
  histoUpdates : List Nat
  halted : Option StatHalt

namespace StatServer

def new (types : List StatType) (histos : List HistoSpec) (size : Nat) : StatServer :=
  ⟨.create types histos size, [], [], none⟩

/-- An action of a living child on its own slot. -/
def onSlot (s : StatServer) (pid : Nat) (f : ChildSlot → ChildSlot) : StatServer :=
  match s.queue.getChildData pid with
  | some (i, c) => if c.exited then s else { s with queue := s.queue.setSlot i (f c) }
  | none => s

/-- The calls of a child that count: those for an entry that is a counter. -/
def record (types : List StatType) (s : StatServer) (id : Nat) (n : UInt64) : StatServer :=
  match types[id]? with
  | some .int64 | some .kbs => { s with increments := (id, n) :: s.increments }
  | some .timeUs | some .timeMs | some .int64Mean | none => s

/-- A child changes a value. Without an attached block the functions return at once. -/
def updateStep (types : List StatType) (s : StatServer) (pid id : Nat) (n : UInt64) : StatServer :=
  match s.queue.getChildData pid with
  | some (i, c) =>
    if c.exited then s
    else if !c.attached then s.record types id n
    else
      match c.stats.update types id n with
      | some b => { s.record types id n with queue := s.queue.setSlot i { c with stats := b } }
      | none => { s with halted := some .memory }
  | none => s

/-- A child that has attached its block updates a histogram. -/
def histoStep (s : StatServer) (pid id : Nat) (value : UInt64) : StatServer :=
  match s.queue.getChildData pid, s.queue.histoArea[id]? with
  | some (_, c), some h =>
    if c.exited || !c.attached then s
    else
      match h.update value with
      | some h' => { s with
          queue := { s.queue with histoArea := s.queue.histoArea.set id h' }
          histoUpdates := id :: s.histoUpdates }
      | none => { s with histoUpdates := id :: s.histoUpdates, halted := some .memory }
  | _, _ => s

def reapStep (types : List StatType) (s : StatServer) (pid : Nat) (status : Bool) : StatServer :=
  match s.queue.getChildData pid with
  | some (_, c) =>
    if c.exited then
      match s.queue.removeChild types pid status with
      | some q => { s with queue := q }
      | none => { s with halted := some .abort }
    else s
  | none => s

def step (types : List StatType) (s : StatServer) (e : StatEvent) : StatServer :=
  if s.halted.isSome then s
  else
    match e with
    | .start => { s with queue := s.queue.attach.announceChild }
    | .register pid =>
      -- the system gives no two living processes the same pid
      if pid = 0 ∨ (s.queue.getChildData pid).isSome then s
      else { s with queue := (s.queue.registerChild pid).getD s.queue }
    | .attach pid => s.onSlot pid fun c =>
      if c.attached then c else { c with stats := .init types, attached := true }
    | .request pid => s.onSlot pid fun c => { c with requests := c.requests + 1 }
    | .update pid id n => s.updateStep types pid id n
    | .histoUpdate pid id value => s.histoStep pid id value
    | .mark pid mode => s.onSlot pid fun c => { c with toBeKilled := mode }
    | .exit pid => s.onSlot pid fun c => { c with exited := true }
    | .reap pid status => s.reapStep types pid status

/-- The total of the increments of an entry. -/
def made (s : StatServer) (id : Nat) : Nat :=
  ((s.increments.filter fun p => p.1 == id).map fun p => p.2.toNat).sum

def updates (s : StatServer) (id : Nat) : Nat := s.histoUpdates.count id

end StatServer

end CIcap
