import CIcap.Stats.Block

/-! # The statistics in the shared segment

The statistics blocks of the children lie one behind the other in the shared memory, then the history
block and the histograms (`attach_memory_to_childs_queue`). The memory is modelled as words of eight
bytes: a block is a word with the signature and the number of its values, and a word for each value.
-/

namespace CIcap

/-- The shared memory, by words. -/
abbrev Segment := Nat → UInt64

/-- The functions that change a value: those for one value, and `ci_stat_update` for a list of them -/
inductive StatCall
  | uint64Inc (id : Int) (count : UInt64)
  | uint64Dec (id : Int) (count : UInt64)
  | kbsInc (id : Int) (count : UInt64)
  | valueSet (id : Int) (value : UInt64)
  | update (items : List (StatType × Int × UInt64))

/-- The values that a call goes to, each with what is done to it. A negative count of an item is
subtracted, which is the same as to add it. -/
def StatCall.writes : StatCall → List (Int × (UInt64 → UInt64))
  | .uint64Inc id count | .kbsInc id count => [(id, (· + count))]
  | .uint64Dec id count => [(id, (· - count))]
  | .valueSet id value => [(id, fun _ => value)]
  | .update items => items.map fun item =>
      (item.2.1, if item.1.isMean then fun _ => item.2.2 else (· + item.2.2))

namespace Segment

/-- `stats_count` of the block at `block`: the upper half of its first word, an `int` -/
def statsCount (mem : Segment) (block : Nat) : Int := Int.bmod ((mem block).toNat / 2 ^ 32) (2 ^ 32)

/-- The access of all these functions to a value: the identifier is compared with `stats_count`. -/
def onValue (block : Nat) (mem : Segment) (w : Int × (UInt64 → UInt64)) : Segment :=
  if w.1 < 0 ∨ mem.statsCount block < w.1 then mem
  else Function.update mem (block + 1 + w.1.toNat) (w.2 (mem (block + 1 + w.1.toNat)))

/-- Calls of the child with the block at `block` -/
def calls (block : Nat) (mem : Segment) (cs : List StatCall) : Segment :=
  (cs.flatMap StatCall.writes).foldl (onValue block) mem

variable {block n : Nat} {mem : Segment}

theorem statsCount_congr {mem' : Segment} (h : mem' block = mem block) :
    mem'.statsCount block = mem.statsCount block := by
  unfold statsCount
  rw [h]

/-- An identifier other than `stats_count` leads to a value of the block or to no change. -/
theorem onValue_frame (hn : mem.statsCount block = n) {w : Int × (UInt64 → UInt64)} (hid : w.1 ≠ n)
    {a : Nat} (hne : onValue block mem w a ≠ mem a) : ∃ id : Nat, id < n ∧ w.1 = id ∧ a = block + 1 + id := by
  unfold onValue at hne
  split at hne
  · exact absurd rfl hne
  · next hin =>
    rw [hn] at hin
    refine ⟨w.1.toNat, by omega, by omega, ?_⟩
    by_contra ha
    exact hne (Function.update_of_ne ha _ _)

theorem foldl_onValue_frame (hn : mem.statsCount block = n) {ws : List (Int × (UInt64 → UInt64))}
    (hids : ∀ w ∈ ws, w.1 ≠ n) {a : Nat} (hne : ws.foldl (onValue block) mem a ≠ mem a) :
    ∃ id : Nat, id < n ∧ (id : Int) ∈ ws.map Prod.fst ∧ a = block + 1 + id := by
  induction ws generalizing mem with
  | nil => exact absurd rfl hne
  | cons w ws ih =>
    have hw : w.1 ≠ n := hids w List.mem_cons_self
    have hhead : onValue block mem w block = mem block := by
      by_contra hne
      obtain ⟨id, -, -, heq⟩ := onValue_frame hn hw hne
      omega
    by_cases ha : onValue block mem w a = mem a
    · -- the change is made by one of the other accesses
      have hn' := (statsCount_congr hhead).trans hn
      obtain ⟨id, hid, hmem, rfl⟩ := ih hn' (fun w h => hids w (List.mem_cons_of_mem _ h))
        fun heq => hne (heq.trans ha)
      exact ⟨id, hid, List.mem_cons_of_mem _ hmem, rfl⟩
    · obtain ⟨id, hid, hw', rfl⟩ := onValue_frame hn hw ha
      exact ⟨id, hid, by simp [hw'], rfl⟩

/-- **The frame of the updates.** The blocks of the children, of `n` values, begin at `area`. Calls of
child `i` without the identifier `n` change only values they name, inside the block of the child. -/
theorem stat_updates_frame (area n i : Nat) (mem : Segment) (cs : List StatCall)
    (hn : mem.statsCount (area + i * (n + 1)) = n)
    (hids : ∀ w ∈ cs.flatMap StatCall.writes, w.1 ≠ n) (a : Nat)
    (hne : calls (area + i * (n + 1)) mem cs a ≠ mem a) :
    (∃ id : Nat, id < n ∧ (id : Int) ∈ (cs.flatMap StatCall.writes).map Prod.fst ∧
        a = area + i * (n + 1) + 1 + id) ∧
      area + i * (n + 1) < a ∧ a < area + (i + 1) * (n + 1) := by
  have hentry := foldl_onValue_frame hn hids hne
  refine ⟨hentry, ?_⟩
  obtain ⟨id, hid, -, rfl⟩ := hentry
  rw [Nat.succ_mul]
  omega

/-- Initialised blocks of two values. -/
def twoBlocks : Segment := fun a => if a % 3 = 0 then 0x20000FAFA else 0

theorem stat_updates_frame_two : twoBlocks.statsCount 0 = 2 ∧
    calls (0 + 0 * (2 + 1)) twoBlocks [.uint64Inc 1 5] 2 ≠ twoBlocks 2 ∧ 2 < 0 + (0 + 1) * (2 + 1) :=
  ⟨by decide, by decide, (stat_updates_frame 0 2 0 twoBlocks [.uint64Inc 1 5] (by decide)
    (by simp [StatCall.writes]) 2 (by decide)).2.2⟩

/-- The identifier behind the last one is let through and changes the head of the next block. -/
theorem stat_update_behind : calls 0 twoBlocks [.uint64Inc 2 1] 3 ≠ twoBlocks 3 := by decide

end Segment

end CIcap
