import CIcap.Lib.Machine

/-! # Pools of objects

The table in which `ci_object_pool_register` keeps the pools, and the counters that a pool keeps of
its items. A registration that takes an empty slot again counts it as a new one. An item that was
taken back before there were statistics keeps its flag when it is handed out again.
-/

namespace CIcap

open List

/-! ## The table -/

section Table

variable {α : Type}

/-- `STEP` -/
def poolStep : Nat := 128

/-- `object_pools`, with `none` for what was never written, `object_pools_size` and
`object_pools_used` -/
structure ObjectPools (α : Type) where
  table : Option (List (Option (Option α))) := none
  size : Nat := 0
  used : Nat := 0

/-- A call with what `malloc` and `ci_create_pool_allocator` do. -/
inductive PoolsCall (α : Type)
  | register (memory : Bool) (pool : Option α)
  | unregister (id : Int)

namespace ObjectPools

/-- What is read from a slot: nothing outside of the table, `some none` where nothing was written. -/
def slot (s : ObjectPools α) (i : Nat) : Option (Option (Option α)) := s.table.bind (·[i]?)

/-- The first empty slot in front of `object_pools_used`. -/
def emptySlot (t : List (Option (Option α))) (used : Nat) : Option Nat :=
  (t.take used).findIdx? fun c => c.isSome && c.join.isNone

def store (s : ObjectPools α) (t : List (Option (Option α))) (id : Nat) (pool : Option α) :
    ObjectPools α × Option Nat :=
  ({ s with table := some (t.set id (some pool)), used := s.used + 1 }, some id)

/-- `ci_object_pool_register` -/
def register (s : ObjectPools α) (memory : Bool) (pool : Option α) :
    ObjectPools α × Option Nat :=
  match s.table with
  | none =>
    let s := { s with size := poolStep }
    if memory then s.store (replicate poolStep none) 0 pool else (s, none)
  | some t =>
    match emptySlot t s.used with
    | some id => s.store t id pool
    | none =>
      if s.size = s.used then
        let s := { s with size := s.size + poolStep }
        if memory then s.store (t ++ replicate poolStep none) s.used pool
        else ({ s with table := none }, none)
      else s.store t s.used pool

/-- `ci_object_pool_unregister` -/
def unregister (s : ObjectPools α) (id : Int) : ObjectPools α :=
  if s.used ≤ id ∨ id < 0 then s
  else
    match s.slot id.toNat with
    | some (some (some _)) => { s with table := s.table.map (·.set id.toNat (some none)) }
    | _ => s

def call (s : ObjectPools α) : PoolsCall α → ObjectPools α
  | .register memory pool => (s.register memory pool).1
  | .unregister id => s.unregister id

/-- The slots in use are inside the table, where the loops run, and written; a registration
returns the slot of the new pool, and the pools in the other slots stay. -/
structure Safe (s : ObjectPools α) (c : PoolsCall α) : Prop where
  size : (s.call c).size = ((s.call c).table.getD []).length
  used : (s.call c).used ≤ (s.call c).size
  written : ∀ i < (s.call c).used, ∃ p, (s.call c).slot i = some (some p)
  registers : ∀ memory pool, c = .register memory pool → ∃ id p, (s.register memory pool).2 = some id ∧
    pool = some p ∧ (s.call c).slot id = some (some pool) ∧ ∀ q, s.slot id ≠ some (some (some q))
  keeps : ∀ (i : Nat) q, s.slot i = some (some (some q)) → c ≠ .unregister i →
    (s.call c).slot i = some (some (some q))

/-- There is memory, and a registration finds no empty slot. -/
def NoneEmpty (s : ObjectPools α) : PoolsCall α → Prop
  | .register memory pool =>
    memory = true ∧ pool.isSome = true ∧ ∀ i < s.used, s.slot i ≠ some (some none)
  | .unregister _ => True

/-- The slots in use are those that were written. -/
structure Inv (s : ObjectPools α) : Prop where
  size : s.size = (s.table.getD []).length
  written : ∀ i, i < s.used ↔ ∃ p, s.slot i = some (some p)

/-- The slot behind the ones in use has been written. -/
structure Added (s : ObjectPools α) (pool : Option α) (r : ObjectPools α × Option Nat) : Prop where
  id : r.2 = some s.used
  inv : r.1.Inv
  new : r.1.slot s.used = some (some pool)
  old : ∀ i < s.used, r.1.slot i = s.slot i

variable {s : ObjectPools α}

theorem Inv.used_le (h : s.Inv) : s.used ≤ s.size := by
  by_contra hlt
  obtain ⟨p, hp⟩ := (h.written s.size).mp (by omega)
  cases ht : s.table with
  | none => simp [slot, ht] at hp
  | some t => simp [slot, ht, h.size] at hp

/-- A registration behind the slots in use, in a table in which nothing else was written. -/
theorem Inv.store (h : s.Inv) {t : List (Option (Option α))} {size : Nat} (pool : Option α)
    (hsize : size = t.length) (hlt : s.used < t.length) (hold : ∀ i < s.used, t[i]? = s.slot i)
    (hnew : ∀ i p, s.used ≤ i → t[i]? ≠ some (some p)) :
    s.Added pool (ObjectPools.store { s with size := size } t s.used pool) := by
  have hslot (i : Nat) : ((some (t.set s.used (some pool))).bind (·[i]?)) =
      if s.used = i then some (some pool) else t[i]? := by
    rw [Option.bind_some, getElem?_set, if_pos hlt]
  refine ⟨rfl, ⟨by simp [ObjectPools.store, hsize], fun i => ?_⟩, ?_, fun i hi => ?_⟩
  · show i < s.used + 1 ↔ _
    rw [slot, ObjectPools.store, hslot]
    rcases lt_trichotomy i s.used with hi | rfl | hi
    · rw [if_neg hi.ne', hold i hi, ← h.written i]
      omega
    · simp
    · rw [if_neg hi.ne]
      exact iff_of_false (by omega) fun ⟨p, hp⟩ => hnew i p hi.le hp
  · rw [slot, ObjectPools.store, hslot, if_pos rfl]
  · rw [slot, ObjectPools.store, hslot, if_neg hi.ne', hold i hi]

theorem Inv.register (h : s.Inv) (hfull : ∀ i < s.used, s.slot i ≠ some (some none))
    (pool : Option α) : s.Added pool (s.register true pool) := by
  have hsize := h.size
  have hle := h.used_le
  unfold ObjectPools.register
  cases ht : s.table with
  | none =>
    have hused : s.used = 0 := by
      rw [ht] at hsize
      exact Nat.le_zero.mp (hle.trans_eq hsize)
    have hstore := @Inv.store _ s h (replicate poolStep none) poolStep pool (by simp)
      (by simp [hused, poolStep]) (by simp [hused]) (by simp [getElem?_replicate])
    rw [hused] at hstore
    rw [hused]
    exact hstore
  | some t =>
    have hslot (i : Nat) : s.slot i = t[i]? := by simp [slot, ht]
    rw [ht, Option.getD_some] at hsize
    have hnew (i : Nat) (p : Option α) (hi : s.used ≤ i) : t[i]? ≠ some (some p) := by
      intro hp
      exact absurd ((h.written i).mpr ⟨p, (hslot i).trans hp⟩) (by omega)
    have hempty : emptySlot t s.used = none := by
      rw [emptySlot, findIdx?_eq_none_iff]
      intro c hc
      obtain ⟨i, hi, rfl⟩ := mem_iff_getElem.mp hc
      rw [length_take] at hi
      have hne := hfull i (by omega)
      obtain ⟨p, hp⟩ := (h.written i).mp (by omega)
      rw [hslot, getElem?_eq_getElem (by omega)] at hp hne
      cases p with
      | none => exact absurd hp hne
      | some q => simp [Option.some.inj hp]
    simp only [hempty]
    split_ifs with hgrow
    · have hstore := @Inv.store _ s h (t ++ replicate poolStep none) (s.size + poolStep) pool
        (by simp [hsize]) (by simp [poolStep]; omega) (fun i hi => ?_) (fun i p hi => ?_)
      · rwa [ht] at hstore
      · rw [hslot, getElem?_append_left (by omega)]
      · rw [getElem?_append_right (by omega), getElem?_replicate]
        split <;> simp
    · have hstore := h.store pool hsize (by omega) (fun i _ => (hslot i).symm) hnew
      rwa [ht] at hstore

theorem Inv.unregister (h : s.Inv) (id : Int) : (s.unregister id).Inv ∧
    ∀ i : Nat, id ≠ i → (s.unregister id).slot i = s.slot i := by
  unfold ObjectPools.unregister
  split_ifs with hid
  · exact ⟨h, fun _ _ => rfl⟩
  split
  · rename_i q hq
    have hslot (i : Nat) : (s.table.map (·.set id.toNat (some none))).bind (·[i]?) =
        if id.toNat = i then some (some none) else s.slot i := by
      cases ht : s.table with
      | none => simp [slot, ht] at hq
      | some t =>
        have hlt : id.toNat < t.length := by
          by_contra hge
          simp [slot, ht, hge] at hq
        simp [slot, ht, getElem?_set, hlt]
    refine ⟨⟨?_, fun i => ?_⟩, fun i hne => ?_⟩
    · rw [h.size]
      cases s.table <;> simp
    · rw [slot, hslot, h.written i]
      split_ifs with heq
      · rw [← heq, hq]
        simp
      · rfl
    · rw [slot, hslot, if_neg (by omega)]
  · exact ⟨h, fun _ _ => rfl⟩

/-- **The table of the pools.** In every run of calls in which no registration finds an empty slot,
and there is memory, the slots in use stay inside the table and written, every registration returns
the slot of its pool, and no pool is lost. -/
theorem object_pools_safe (cs : List (PoolsCall α)) (h : Machine.AllSteps call NoneEmpty {} cs) :
    Machine.AllSteps call Safe {} cs := by
  refine Machine.AllSteps.imp_of_inv (P := Inv) ?_ ⟨rfl, by simp [slot]⟩ h
  intro s c hs hok
  have hused (i : Nat) (q : α) (hq : s.slot i = some (some (some q))) : i < s.used :=
    (hs.written i).mpr ⟨_, hq⟩
  cases c with
  | register memory pool =>
    obtain ⟨rfl, hpool, hfull⟩ := hok
    have hadd := hs.register hfull pool
    obtain ⟨p, rfl⟩ := Option.isSome_iff_exists.mp hpool
    refine ⟨⟨hadd.inv.size, hadd.inv.used_le, fun i => (hadd.inv.written i).mp, ?_,
      fun i q hq _ => (hadd.old i (hused i q hq)).trans hq⟩, hadd.inv⟩
    rintro _ _ ⟨⟩
    exact ⟨_, p, hadd.id, rfl, hadd.new, fun q hq => absurd (hused _ q hq) (by omega)⟩
  | unregister id =>
    obtain ⟨hinv, hkeep⟩ := hs.unregister id
    exact ⟨⟨hinv.size, hinv.used_le, fun i => (hinv.written i).mp, nofun,
      fun i q hq hne => (hkeep i fun heq => hne (by rw [heq])).trans hq⟩, hinv⟩

/-- Two pools, one of which is unregistered. -/
theorem object_pools_safe_two : Machine.AllSteps call Safe {}
    [.register true (some 1), .register true (some 2), .unregister 0] := by
  refine object_pools_safe _ ⟨⟨rfl, rfl, nofun⟩, ⟨rfl, rfl, ?_⟩, trivial, trivial⟩
  decide

/-- A slot is taken again, and the slot behind it counts as one in use. -/
theorem slot_not_written : ¬ Machine.AllSteps call Safe {}
    [.register true (some 1), .unregister 0, .register true (some 2)] := by
  rintro ⟨-, -, h, -⟩
  obtain ⟨p, hp⟩ := h.written 1 (by decide)
  cases hp

end ObjectPools

end Table

/-! ## The counters of a pool -/

/-- An item: its flag `FL_MEM_BLOCK_UNACCOUNTED`, and whether it was handed out, or taken back, when
there were statistics. -/
structure PoolItem where
  unaccounted : Bool
  counted : Bool
deriving DecidableEq

/-- A pool: its free items, those that are outstanding, whether `ci_stat_memblock_get` gives the
statistics, and the counters `Used` and `Idle` -/
structure PoolCounters where
  free : List PoolItem := []
  live : List PoolItem := []
  stats : Bool := false
  used : Int := 0
  idle : Int := 0

/-- An allocation of a size that fits or not, the return of an outstanding item, a reset, or the
statistics become available. -/
inductive PoolOp
  | alloc (fits : Bool)
  | free (i : Nat)
  | reset
  | statsOn

namespace PoolCounters

/-- `pool_allocator_alloc`, with the item and the counter `Idle` behind its first part -/
def allocatorAlloc (s : PoolCounters) : PoolCounters :=
  let (item, idle) :=
    match s.free with
    | item :: _ => (item, if s.stats && !item.unaccounted then s.idle - 1 else s.idle)
    | [] => (⟨false, false⟩, s.idle)
  { s with
    free := s.free.tail
    live := ⟨item.unaccounted || !s.stats, s.stats⟩ :: s.live
    used := if s.stats then s.used + 1 else s.used
    idle := idle }

/-- `pool_allocator_free` -/
def allocatorFree (s : PoolCounters) (i : Nat) : PoolCounters :=
  match s.live[i]? with
  | none => s
  | some item =>
    { s with
      free := ⟨!s.stats, s.stats⟩ :: s.free
      live := s.live.eraseIdx i
      used := if s.stats && !item.unaccounted then s.used - 1 else s.used
      idle := if s.stats then s.idle + 1 else s.idle }

/-- `pool_allocator_reset` -/
def allocatorReset (s : PoolCounters) : PoolCounters :=
  { s with free := [], idle := if s.stats then s.idle - s.free.length else s.idle }

def step (s : PoolCounters) : PoolOp → PoolCounters
  | .alloc fits => if fits then s.allocatorAlloc else s
  | .free i => s.allocatorFree i
  | .reset => s.allocatorReset
  | .statsOn => { s with stats := true }

/-- The counters are the numbers of items that were counted. -/
def Exact (s : PoolCounters) : Prop :=
  s.stats = true → s.used = s.live.countP (·.counted) ∧ s.idle = s.free.countP (·.counted)

/-- With statistics, no free item that was not counted is handed out or released. -/
def Accounted (s : PoolCounters) : PoolOp → Prop
  | .alloc _ => s.stats = true → ∀ item ∈ s.free.head?, item.unaccounted = false
  | .reset => s.stats = true → ∀ item ∈ s.free, item.unaccounted = false
  | _ => True

/-- The flags say which items were counted; without statistics none was. -/
structure Flagged (s : PoolCounters) : Prop where
  live : ∀ item ∈ s.live, item.counted = !item.unaccounted ∧ (s.stats = false → item.counted = false)
  free : ∀ item ∈ s.free, item.counted = !item.unaccounted ∧ (s.stats = false → item.counted = false)
  used : s.used = s.live.countP (·.counted)
  idle : s.idle = s.free.countP (·.counted)

variable {s : PoolCounters}

theorem Flagged.alloc (h : s.Flagged)
    (hok : s.stats = true → ∀ item ∈ s.free.head?, item.unaccounted = false) :
    s.allocatorAlloc.Flagged := by
  obtain ⟨hlive, hfree, hused, hidle⟩ := h
  have hmark (item : PoolItem) (hitem : s.stats = true → item.unaccounted = false) :
      (⟨item.unaccounted || !s.stats, s.stats⟩ : PoolItem) = ⟨!s.stats, s.stats⟩ := by
    cases hstats : s.stats with
    | true => rw [hitem hstats]; rfl
    | false => rw [Bool.not_false, Bool.or_true]
  unfold allocatorAlloc
  cases hlist : s.free with
  | nil =>
    rw [hlist] at hidle
    refine ⟨forall_mem_cons.mpr ⟨?_, hlive⟩, nofun, ?_, hidle⟩
    · cases s.stats <;> simp
    · cases hstats : s.stats <;> simp [hused]
  | cons item rest =>
    rw [hlist] at hok hfree hidle
    obtain ⟨⟨hflag, hbefore⟩, hrest⟩ := forall_mem_cons.mp hfree
    dsimp only
    rw [hmark item fun hstats => hok hstats item rfl]
    refine ⟨forall_mem_cons.mpr ⟨?_, hlive⟩, hrest, ?_, ?_⟩
    · cases s.stats <;> simp
    · cases hstats : s.stats <;> simp [hused]
    · rw [hidle]
      cases hstats : s.stats with
      | true => simp [hflag, hok hstats item rfl]
      | false => simp [hbefore hstats]

theorem Flagged.release (h : s.Flagged) (i : Nat) : (s.allocatorFree i).Flagged := by
  unfold allocatorFree
  cases hi : s.live[i]? with
  | none => exact h
  | some item =>
    obtain ⟨hlt, hget⟩ := List.getElem?_eq_some_iff.mp hi
    have hperm := getElem_cons_eraseIdx_perm hlt
    rw [hget] at hperm
    have hitem := h.live item (hperm.mem_iff.mp mem_cons_self)
    refine ⟨fun x hx => h.live x (mem_of_mem_eraseIdx hx), forall_mem_cons.mpr ⟨?_, h.free⟩, ?_, ?_⟩
    · cases s.stats <;> simp
    · have hcount := hperm.countP_eq (·.counted)
      rw [h.used, ← hcount]
      cases hstats : s.stats with
      | true => cases hflag : item.unaccounted <;> simp [hitem.1, hflag]
      | false => simp [hitem.2 hstats]
    · rw [h.idle]
      cases hstats : s.stats <;> simp

theorem Flagged.reset (h : s.Flagged)
    (hok : s.stats = true → ∀ item ∈ s.free, item.unaccounted = false) : s.allocatorReset.Flagged := by
  refine ⟨h.live, nofun, h.used, ?_⟩
  unfold allocatorReset
  rw [h.idle]
  cases hstats : s.stats with
  | true =>
    have hall : s.free.countP (·.counted) = s.free.length :=
      countP_eq_length.mpr fun item hitem => by rw [(h.free item hitem).1, hok hstats item hitem]; rfl
    simp [hall]
  | false =>
    have hnone : s.free.countP (·.counted) = 0 :=
      countP_eq_zero.mpr fun item hitem => by simp [(h.free item hitem).2 hstats]
    simp [hnone]

theorem Flagged.step {o : PoolOp} (h : s.Flagged) (hok : s.Accounted o) : (s.step o).Flagged := by
  cases o with
  | alloc fits =>
    cases fits with
    | true => exact h.alloc hok
    | false => exact h
  | free i => exact h.release i
  | reset => exact h.reset hok
  | statsOn => exact ⟨fun item hitem => ⟨(h.live item hitem).1, nofun⟩,
      fun item hitem => ⟨(h.free item hitem).1, nofun⟩, h.used, h.idle⟩

/-- **The counters of a pool.** They are exact in every state of a run in which no item that was
returned before there were statistics is taken from the free list when there are. -/
theorem pool_counters_exact (os : List PoolOp) (h : Machine.AllSteps step Accounted {} os) :
    (Machine.run step {} os).Exact := by
  have hflagged : (Machine.run step {} os).Flagged :=
    Machine.run_inv (P := Flagged) (fun _ _ hs hok => hs.step hok) ⟨nofun, nofun, rfl, rfl⟩ h
  exact fun _ => ⟨hflagged.used, hflagged.idle⟩

/-- Items handed out before and after the statistics became available. -/
theorem pool_counters_exact_three : (Machine.run step {}
    [.alloc true, .statsOn, .alloc true, .free 1, .alloc true]).Exact :=
  pool_counters_exact _ ⟨nofun, trivial, nofun, trivial, by rintro - _ ⟨⟩; rfl, trivial⟩

/-- An item that was returned before there were statistics is handed out and returned with them,
and still counts as used. -/
theorem returned_item_used : ¬ (Machine.run step {}
    [.alloc true, .free 0, .statsOn, .alloc true, .free 0]).Exact :=
  fun h => absurd (h rfl).1 (by decide)

end PoolCounters

end CIcap
