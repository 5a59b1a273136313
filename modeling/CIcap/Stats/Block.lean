import Mathlib.Data.UInt
import Mathlib.Tactic

/-! # Statistics blocks

`stats.c` keeps the statistics of a process in one block of memory: a signature, the number of
values in use and one 64 bit value for each registered entry. The entries are registered before
the first block is built and have the five types of `StatType`: two kinds of counters and three
kinds of mean values. All children of the server share the memory their blocks lie in, which is
zero until the child it belongs to runs `ci_stat_memblock_init` on it.

Counters are `uint64_t` and wrap around, so values are `UInt64` here. A failed assertion ends the
process: the functions with an assertion return `none` then.
-/

namespace CIcap

open List

inductive StatType
  | int64
  | kbs
  | timeUs
  | timeMs
  | int64Mean
deriving DecidableEq, Repr

/-- The types whose value is a mean and not a count. -/
def StatType.isMean : StatType → Bool
  | .int64 | .kbs => false
  | .timeUs | .timeMs | .int64Mean => true

/-- `MEMBLOCK_SIG`. -/
def memblockSig : Nat := 0xFAFA

structure MemBlock where
  sig : Nat
  statsCount : Nat
  stats : List UInt64
deriving DecidableEq, Repr

namespace MemBlock

/-- Shared memory that no process has initialised. -/
def zeros (n : Nat) : MemBlock := ⟨0, 0, replicate n 0⟩

/-- `ci_stat_memblock_init` for the registered entries `types`. -/
def init (types : List StatType) : MemBlock :=
  ⟨memblockSig, types.length, replicate types.length 0⟩

/-- `ci_stat_memblock_check`. -/
def check (types : List StatType) (b : MemBlock) : Bool :=
  b.sig == memblockSig && decide (b.statsCount ≤ types.length)

/-- `ci_stat_memblock_get_counter`; `ci_stat_memblock_get_kbs` reads the same eight bytes. -/
def getCounter (b : MemBlock) (id : Nat) : UInt64 :=
  if id < b.statsCount then b.stats.getD id 0 else 0

/-- One entry of `ci_stat_memblock_merge`: counters are added, and the mean of `existing` instances
is updated by one more, unless the block is merged into the history. -/
def mergeEntry (t : StatType) (history : Bool) (existing : Nat) (a b : UInt64) : UInt64 :=
  match t with
  | .int64 | .kbs => a + b
  | .timeUs | .timeMs | .int64Mean =>
    if history then a
    else UInt64.ofNat ((UInt64.ofNat existing * a + b).toNat / (existing + 1))

/-- `ci_stat_memblock_merge`; its four assertions come first. -/
def merge (types : List StatType) (into block : MemBlock) (history : Bool) (existing : Nat) :
    Option MemBlock :=
  if into.statsCount < block.statsCount ∨ into.statsCount ≠ types.length ∨
      into.sig ≠ memblockSig ∨ block.sig ≠ memblockSig then none
  else some { into with stats := into.stats.mapIdx fun i v =>
    match types[i]? with
    | some t =>
      if i < block.statsCount then mergeEntry t history existing v (block.stats.getD i 0) else v
    | none => v }

/-- The three ways the services change a value, chosen by the type of the entry:
`ci_stat_uint64_inc`, `ci_stat_kbs_inc` and `ci_stat_value_set`. All three let the identifier
`stats_count` pass, which lies behind the block: the write goes to memory that is not theirs. -/
def update (types : List StatType) (b : MemBlock) (id : Nat) (n : UInt64) : Option MemBlock :=
  if b.statsCount < id then some b
  else if id = b.statsCount then none
  else
    match types[id]? with
    | some .int64 | some .kbs => some { b with stats := b.stats.modify id (· + n) }
    | some .timeUs | some .timeMs | some .int64Mean => some { b with stats := b.stats.set id n }
    | none => some b

/-- A block that a process has initialised for the entries `types`. -/
structure Ready (types : List StatType) (b : MemBlock) : Prop where
  sig : b.sig = memblockSig
  count : b.statsCount = types.length
  length : b.stats.length = types.length

theorem init_ready (types : List StatType) : (init types).Ready types :=
  ⟨rfl, rfl, length_replicate⟩

theorem getCounter_init (types : List StatType) (id : Nat) : (init types).getCounter id = 0 := by
  unfold getCounter init
  split
  · simp only [getD_eq_getElem?_getD, getElem?_replicate]
    split <;> rfl
  · rfl

namespace Ready

variable {types : List StatType} {b c : MemBlock}

theorem check (h : b.Ready types) : b.check types = true := by
  simp [MemBlock.check, h.sig, h.count]

/-- Merging a block that is ready into one that is ready meets every assertion. -/
theorem merge (hb : b.Ready types) (hc : c.Ready types) (history : Bool) (existing : Nat) :
    ∃ d, MemBlock.merge types b c history existing = some d ∧ d.Ready types ∧
      ∀ (id : Nat) (t : StatType), types[id]? = some t →
        d.getCounter id = mergeEntry t history existing (b.getCounter id) (c.getCounter id) := by
  unfold MemBlock.merge
  rw [if_neg (by simp [hb.sig, hb.count, hc.sig, hc.count])]
  refine ⟨_, rfl, ⟨hb.sig, hb.count, by simpa using hb.length⟩, ?_⟩
  intro id t ht
  have hid : id < types.length := (List.getElem?_eq_some_iff.mp ht).1
  have hlen : id < b.stats.length := hb.length ▸ hid
  simp only [getCounter, hb.count, hc.count, if_pos hid, getD_eq_getElem?_getD,
    getElem?_mapIdx, getElem?_eq_getElem hlen, Option.map_some, ht,
    Option.getD_some]

/-- A value of a block that is ready is changed as its type says and no other value is. -/
theorem update (h : b.Ready types) {id : Nat} {t : StatType} (ht : types[id]? = some t)
    (n : UInt64) :
    ∃ d, MemBlock.update types b id n = some d ∧ d.Ready types ∧ ∀ j,
      d.getCounter j = if j = id then (if t.isMean then n else b.getCounter j + n)
        else b.getCounter j := by
  have hid : id < types.length := (List.getElem?_eq_some_iff.mp ht).1
  have hlen : id < b.stats.length := h.length ▸ hid
  unfold MemBlock.update
  rw [if_neg (by rw [h.count]; omega), if_neg (by rw [h.count]; omega), ht]
  cases t
  all_goals
    refine ⟨_, rfl, ⟨h.sig, h.count, by simpa using h.length⟩, ?_⟩
    intro j
    simp only [getCounter, h.count, StatType.isMean]
    by_cases hj : j = id
    · subst hj
      simp [hid, hlen]
    · simp [hj, Ne.symm hj]

end Ready

theorem merge_of_sig {types : List StatType} {b c : MemBlock} (h : c.sig ≠ memblockSig)
    (history : Bool) (existing : Nat) : merge types b c history existing = none := by
  unfold merge
  rw [if_pos (.inr (.inr (.inr h)))]

end MemBlock

end CIcap
