import CIcap.Cache.LocalRun

/-! # The links of the local cache along a run

In a cache with two entries or more the queue always leads through all entries, from the oldest to
the newest, and the chains of the hash table hold exactly the entries in use, each in the chain of
its hash. The entries that are not in use have the time zero, so they stand in front. With a single
entry an update leaves the queue without a first entry: the entry's successor is read before the
entry is made the last one.
-/

namespace CIcap

open Links List

/-- **What the links of a cache say.** -/
structure LocalCache.Linked (c : LocalCache) : Prop where
  /-- the queue holds every entry once, in the order of the times, up to the last entry -/
  queue : ∃ order : List (Nat × CacheItem), order ≠ [] ∧
    Seg (qcells c.entries) c.firstQueueEntry order none ∧
    c.lastQueueEntry = (addrs order).getLast? ∧ (addrs order).Perm (range c.entries.length) ∧
    order.Pairwise fun n m => n.2.time ≤ m.2.time
  /-- an entry is in the chain of a hash exactly if it has a key and this hash, and then once -/
  chains : ∃ chain : Nat → List (Nat × CacheItem), (∀ hash < c.hashTable.length,
      Seg (hcells c.entries) (c.hashTable.getD hash none) (chain hash) none ∧
        (addrs (chain hash)).Nodup) ∧
    ∀ (x : Nat) (e : CacheEntry), c.entries[x]? = some e →
      (e.key ≠ none → e.hash < c.hashTable.length) ∧
      ∀ hash < c.hashTable.length, x ∈ addrs (chain hash) ↔ e.key ≠ none ∧ e.hash = hash

namespace LocalCache

variable {c : LocalCache} {free : List (Nat × CacheItem)} {held : List (Nat × Stored)}
  {clock now : Nat} {ttl : Int}

theorem Rep.linked (h : c.Rep free held) (hne : c.entries ≠ []) (ht : Timed clock held) :
    c.Linked := by
  have hsize : ∀ d : Stored, keyHash c.hashTableSize d.key < c.hashTable.length := by
    intro d
    rw [h.table]
    exact Nat.lt_succ_of_le (keyHash_le _ _)
  constructor
  · refine ⟨free ++ nodes c.hashTableSize held, ?_, h.queue, h.last, ?_, ?_⟩
    · intro hnil
      have hlen := congrArg length hnil
      rw [length_append, nodes, length_map, h.all] at hlen
      exact hne (length_eq_zero_iff.mp hlen)
    · rw [addrs_append, addrs_nodes]
      exact h.perm
    · have hfree : ∀ n ∈ free, ∀ m : Nat × CacheItem, n.2.time ≤ m.2.time := by
        intro n hn m
        rw [(h.unused n hn).2.2]
        exact Nat.zero_le _
      refine pairwise_append.mpr ⟨?_, pairwise_map.mpr ht.1, fun n hn m _ => hfree n hn m⟩
      exact (pairwise_of_forall_mem_list fun n hn m _ => hfree n hn m)
  · refine ⟨fun hash => chainOf c.hashTableSize hash held, fun hash hlt => ⟨?_, ?_⟩, ?_⟩
    · rw [h.table] at hlt
      exact h.chain hash (Nat.le_of_lt_succ hlt)
    · exact nodup_chainOf _ _ h.nodup.of_append_right
    · intro x e he
      refine ⟨fun hkey => ?_, fun hash _ => mem_addrs_chainOf_iff.trans ⟨?_, ?_⟩⟩
      · obtain ⟨d, -, hitem⟩ := h.held_of_entry he hkey
        rw [hitem]
        exact hsize d
      · rintro ⟨d, hd, rfl⟩
        obtain ⟨e', he', hitem⟩ := h.entry_of_held hd
        obtain rfl : e = e' := Option.some.inj (he.symm.trans he')
        rw [hitem]
        exact ⟨Option.some_ne_none _, rfl⟩
      · rintro ⟨hkey, rfl⟩
        obtain ⟨d, hd, hitem⟩ := h.held_of_entry he hkey
        exact ⟨d, hd, by rw [hitem]; rfl⟩

/-- Before the time `ttl` every update is refused. -/
theorem Rep.update_early (h : c.Rep free held) (hne : c.entries ≠ []) (hearly : now < ttl)
    (key : List UInt8) (val : Option CacheValue) (mem : CacheMem) :
    c.update ttl now key val mem = some (c, false) := by
  obtain ⟨a, e, hfirst, he, -⟩ := h.first_entry hne (by omega : (0 : Int) ≤ now)
  unfold update
  simp only [hfirst, he, Option.bind_eq_bind, Option.bind_some]
  exact if_pos (by omega)

end LocalCache

namespace LocalState

/-- What every call keeps. -/
def Kept (s : LocalState) : Prop :=
  2 ≤ s.cache.entries.length ∧
    ∃ free held, s.cache.Rep free held ∧ Timed s.clock held

/-- The clock does not go back, and the sizes given to an update fit an `int`. -/
def Regular (s : LocalState) (i : LocalCall) : Prop :=
  s.Ticks i ∧ ∀ key val mem, i.op = .update key val mem → FitsInt key val

theorem Kept.step {s : LocalState} {i : LocalCall} (ttl : Int) (h : s.Kept) (hi : s.Regular i) :
    (s.step ttl i).Kept := by
  obtain ⟨htwo, free, held, hrep, htimed⟩ := h
  obtain ⟨hnow, hfits⟩ := hi
  have hlater : { s with clock := i.now }.Kept :=
    ⟨htwo, free, held, hrep, htimed.mono (List.Sublist.refl _) hnow⟩
  obtain ⟨now, op⟩ := i
  cases op with
  | search key dup => exact hlater
  | update key val mem =>
    unfold LocalState.step
    dsimp only
    by_cases hclock : ttl ≤ now
    · rcases hrep.update_spec htwo hclock (hfits key val mem rfl) mem with
        ⟨hupdate, -⟩ | ⟨a, free', held', c', htaken, -, hlen, hcase⟩
      · rw [hupdate]
        exact hlater
      have hsub : held'.Sublist held := by
        cases htaken with
        | unused => exact List.Sublist.refl _
        | expired => exact sublist_cons_self _ _
      have htimed' := htimed.mono hsub hnow
      rcases hcase with ⟨hupdate, -, it, hrep'⟩ | ⟨hupdate, hrep'⟩
      · rw [hupdate]
        exact ⟨hlen ▸ htwo, _, _, hrep', htimed'⟩
      · rw [hupdate]
        exact ⟨hlen ▸ htwo, _, _, hrep', htimed'.concat a key (wholeValue val)⟩
    · rw [hrep.update_early (ne_nil_of_length_pos (by omega)) (not_le.mp hclock)]
      exact hlater

end LocalState

/-- The links of a cache with two entries or more are right in every state of every run, as long as
the clock does not go back and sizes fit an `int`. -/
theorem local_cache_linked (memSize maxObjectSize : Nat) (ttl : Int) (c : LocalCache)
    (hinit : LocalCache.init memSize maxObjectSize = some c) (htwo : 2 ≤ c.entries.length)
    (calls : List LocalCall)
    (hcalls : Machine.AllSteps (LocalState.step ttl) LocalState.Regular ⟨c, [], 0⟩ calls) :
    (Machine.run (LocalState.step ttl) ⟨c, [], 0⟩ calls).cache.Linked := by
  have hstart : LocalState.Kept ⟨c, [], 0⟩ :=
    ⟨htwo, _, [], LocalCache.rep_init hinit, List.Pairwise.nil, fun n hn => by cases hn⟩
  obtain ⟨htwo', free, held, hrep, htimed⟩ :=
    Machine.run_inv (fun s i h hi => h.step ttl hi) hstart hcalls
  exact hrep.linked (ne_nil_of_length_pos (by omega)) htimed

/-- A cache of three entries after an update. -/
theorem local_cache_linked_three : ∃ c, LocalCache.init 200 10 = some c ∧
    (Machine.run (LocalState.step 10) ⟨c, [], 0⟩
      [⟨10, .update (CText.bytes "key") none ⟨true, true⟩⟩]).cache.Linked := by
  refine ⟨_, rfl, local_cache_linked 200 10 10 _ rfl (by decide) _ ⟨⟨?_, ?_⟩, trivial⟩⟩
  · exact Nat.zero_le _
  · intro key val mem h
    cases h
    exact ⟨by decide, fun v hv => by cases hv⟩

/-- In a cache of one entry an update leaves the queue without a first entry. -/
theorem single_entry_lost : ∃ c, LocalCache.init 100 10 = some c ∧ c.entries.length = 1 ∧
    ¬ (Machine.run (LocalState.step 10) ⟨c, [], 0⟩
      [⟨10, .update (CText.bytes "key") none ⟨true, true⟩⟩]).cache.Linked := by
  refine ⟨_, rfl, rfl, ?_⟩
  rintro ⟨⟨order, hne, hseg, -⟩, -⟩
  have hnone : (Machine.run (LocalState.step 10) ⟨(LocalCache.init 100 10).get rfl, [], 0⟩
      [⟨10, .update (CText.bytes "key") none ⟨true, true⟩⟩]).cache.firstQueueEntry = none := by
    decide +kernel
  cases order with
  | nil => exact hne rfl
  | cons n order => exact Option.some_ne_none n.1 (hseg.1.symm.trans hnone)

end CIcap
