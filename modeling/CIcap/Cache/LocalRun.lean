import CIcap.Cache.LocalRefine
import CIcap.Lib.Machine

/-! # Runs of the local cache

The cache is driven by searches and updates at the times a clock shows. `log` are the values that
the updates have stored, in their order. What the entries in use hold is always a last part of it,
and what comes before has been stored `ttl` seconds ago or earlier (`Inv`). So a search finds what
was stored last under its key as long as that is younger than `ttl`, and an update only takes an
entry that is not. A search that needs a buffer does not look whether it got one, and the size of
a value is kept in an `int`.
-/

namespace CIcap

open Links List

/-! ## The empty cache -/

namespace LocalCache

theorem rep_init {memSize maxObjectSize : Nat} {c : LocalCache}
    (h : init memSize maxObjectSize = some c) :
    c.Rep ((range c.entries.length).map fun i => (i, CacheItem.unused)) [] := by
  unfold init at h
  generalize memSize / (maxObjectSize + cacheEntrySize) = n at h
  by_cases hn : n = 0
  · rw [if_pos hn] at h
    exact absurd h (by simp)
  rw [if_neg hn, Option.some.injEq] at h
  obtain rfl := h
  have haddrs : addrs ((range n).map fun i => (i, CacheItem.unused)) = range n := by
    rw [addrs, map_map]
    exact map_id _
  simp only [length_map, length_range]
  exact
    { queue := by
        have hcells : ∀ i < n, ((range n).map fun i =>
            (⟨CacheItem.unused, if i + 1 < n then some (i + 1) else none⟩ : Cell CacheItem))[i]? =
            some ⟨CacheItem.unused, if i + 1 < n then some (i + 1) else none⟩ := by
          intro i hi
          simp [hi]
        have hrow := seg_row hcells (Nat.zero_add n)
        rw [if_pos (by omega), ← range_eq_range'] at hrow
        simpa [qcells, nodes, Function.comp_def] using hrow
      last := by
        rw [addrs_append, haddrs, addrs_nodes, addrs_nil, append_nil, getLast?_range, if_neg hn]
      nodup := by
        rw [haddrs, addrs_nil, append_nil]
        exact nodup_range
      all := by simp
      table := length_replicate
      chain := by
        intro hash _
        have hnone : (replicate (hashSize n + 1) (none : Option Nat)).getD hash none = none := by
          rw [getD_eq_getElem?_getD, getElem?_replicate]
          split_ifs <;> rfl
        exact hnone
      unused := by
        intro m hm
        obtain ⟨i, -, rfl⟩ := mem_map.mp hm
        exact ⟨rfl, rfl, rfl⟩
      vals := by simp }

section Covered

variable {c : LocalCache} {free : List (Nat × CacheItem)} {held : List (Nat × Stored)} (h : c.Rep free held)
include h

/-- The queue leads through all entries. -/
theorem Rep.perm : (addrs free ++ addrs held).Perm (range c.entries.length) := by
  have hsub : addrs free ++ addrs held ⊆ range c.entries.length := by
    intro y hy
    have hlt := h.queue.lt_length y (by rw [addrs_append, addrs_nodes]; exact hy)
    rw [length_qcells] at hlt
    exact mem_range.mpr hlt
  exact (h.nodup.subperm hsub).perm_of_length_le (by simp [h.all])

theorem Rep.mem_addrs {x : Nat} (hx : x < c.entries.length) : x ∈ addrs free ++ addrs held :=
  h.perm.mem_iff.mpr (mem_range.mpr hx)

theorem Rep.entry_of_held {n : Nat × Stored} (hn : n ∈ held) :
    ∃ e, c.entries[n.1]? = some e ∧ e.toCacheItem = n.2.item c.hashTableSize :=
  h.entry_of_mem (n := (n.1, n.2.item c.hashTableSize))
    (mem_append_right _ (mem_map_of_mem hn))

/-- An entry in use is one of `held`. -/
theorem Rep.held_of_entry {x : Nat} {e : CacheEntry}
    (he : c.entries[x]? = some e) (hkey : e.key ≠ none) :
    ∃ d, (x, d) ∈ held ∧ e.toCacheItem = d.item c.hashTableSize := by
  rcases mem_append.mp (h.mem_addrs (List.getElem?_eq_some_iff.mp he).1) with hmem | hmem
  · obtain ⟨n, hn, rfl⟩ := List.mem_map.mp hmem
    obtain ⟨e', he', hitem⟩ := h.entry_of_mem (mem_append_left _ hn)
    obtain rfl : e = e' := Option.some.inj (he.symm.trans he')
    refine absurd ?_ hkey
    rw [hitem]
    exact (h.unused n hn).1
  · obtain ⟨n, hn, rfl⟩ := List.mem_map.mp hmem
    obtain ⟨e', he', hitem⟩ := h.entry_of_held hn
    obtain rfl : e = e' := Option.some.inj (he.symm.trans he')
    exact ⟨n.2, hn, hitem⟩

end Covered

end LocalCache

/-! ## The update of the queue -/

/-- Memory is not refused and `copy_to_cache` does not give up. -/
def Served (val : Option CacheValue) (mem : CacheMem) : Prop :=
  mem.key = true ∧ ∀ v ∈ val, v.size ≠ 0 → mem.val = true ∧ v.copy v.size ≠ none

/-- The sizes of the key and of the value are numbers of an `int`. -/
def FitsInt (key : List UInt8) (val : Option CacheValue) : Prop :=
  strOps.size key < 2 ^ 31 ∧ ∀ v ∈ val, v.size < 2 ^ 31

theorem sizeInt_of_lt {n : Nat} (h : n < 2 ^ 31) : sizeInt n = n :=
  Int.bmod_eq_of_le (by omega) (by omega)

/-- `store` fails, or leaves the entry of the stored value but for its hash and time. -/
theorem store_spec {key : List UInt8} {val : Option CacheValue} (hfits : FitsInt key val)
    (it : CacheItem) (mem : CacheMem) :
    (∃ it', it.store key val mem = some (it', false) ∧ it'.key = none ∧ it'.hash = it.hash ∧
      it'.time = it.time ∧ ¬ Served val mem) ∨
    ∃ it', it.store key val mem = some (it', true) ∧ ∀ size now,
      { it' with hash := keyHash size key, time := now } =
        (Stored.mk key now (wholeValue val)).item size := by
  unfold CacheItem.store
  rw [sizeInt_of_lt hfits.1]
  by_cases hkey : mem.key = false
  · rw [if_pos (.inl hkey)]
    refine .inl ⟨_, rfl, rfl, rfl, rfl, fun hs => ?_⟩
    rw [hs.1] at hkey
    exact Bool.noConfusion hkey
  rw [if_neg (by rintro (h | h); exacts [hkey h, by omega]), if_neg (by simp)]
  cases val with
  | none => exact .inr ⟨_, rfl, fun size now => rfl⟩
  | some v =>
    dsimp only
    by_cases hsize : v.size = 0
    · rw [if_pos hsize]
      refine .inr ⟨_, rfl, fun size now => ?_⟩
      rw [wholeValue, if_pos hsize]
      rfl
    rw [if_neg hsize, sizeInt_of_lt (hfits.2 v rfl)]
    by_cases hval : mem.val = false
    · rw [if_pos hval]
      refine .inl ⟨_, rfl, rfl, rfl, rfl, fun hs => ?_⟩
      rw [(hs.2 v rfl hsize).1] at hval
      exact Bool.noConfusion hval
    rw [if_neg hval, Int.toNat_natCast]
    cases hcopy : v.copy v.size with
    | none =>
      exact .inl ⟨_, rfl, rfl, rfl, rfl, fun hs => (hs.2 v rfl hsize).2 hcopy⟩
    | some b =>
      refine .inr ⟨_, rfl, fun size now => ?_⟩
      rw [wholeValue, if_neg hsize, hcopy, Stored.item, Option.getD_some, length_copy hcopy]

/-- The stored values are in the order of their times, none later than the clock. -/
def Timed (clock : Nat) (held : List (Nat × Stored)) : Prop :=
  held.Pairwise (fun n m => n.2.time ≤ m.2.time) ∧ ∀ n ∈ held, n.2.time ≤ clock

section Timed

variable {clock now : Nat} {held held' : List (Nat × Stored)}

theorem Timed.mono (h : Timed clock held) (hsub : held'.Sublist held) (hnow : clock ≤ now) :
    Timed now held' :=
  ⟨h.1.sublist hsub, fun n hn => (h.2 n (hsub.subset hn)).trans hnow⟩

theorem Timed.concat (h : Timed now held) (a : Nat) (key : List UInt8) (val : Option (List UInt8)) :
    Timed now (held ++ [(a, ⟨key, now, val⟩)]) := by
  constructor
  · refine pairwise_append.mpr ⟨h.1, pairwise_singleton _ _, fun n hn m hm => ?_⟩
    rw [mem_singleton.mp hm]
    exact h.2 n hn
  · intro n hn
    rcases mem_append.mp hn with hmem | hmem
    · exact h.2 n hmem
    · rw [mem_singleton.mp hmem]

end Timed

/-- Which entry an update takes: one that is not in use, or else the one that was stored first if
it is old enough. -/
inductive Taken (ttl : Int) (now : Nat) : List (Nat × CacheItem) → List (Nat × Stored) → Nat →
    List (Nat × CacheItem) → List (Nat × Stored) → Prop where
  | unused {a : Nat} {it : CacheItem} {free : List (Nat × CacheItem)} {held : List (Nat × Stored)} :
      Taken ttl now ((a, it) :: free) held a free held
  | expired {a : Nat} {d : Stored} {held : List (Nat × Stored)} (hold : ttl ≤ now - d.time) :
      Taken ttl now [] ((a, d) :: held) a [] held

namespace LocalCache

section Update

variable {c : LocalCache} {free free' : List (Nat × CacheItem)} {held held' : List (Nat × Stored)}
  {ttl : Int} {now : Nat} {a : Nat}

variable (h : c.Rep free held)
include h

/-- The entry that an update takes is taken out of use. -/
theorem Rep.evict_taken (ht : Taken ttl now free held a free' held') :
    ∃ c' it', c.evict a = some c' ∧ c'.Rep ((a, it') :: free') held' ∧
      c'.hashTableSize = c.hashTableSize ∧ c'.entries.length = c.entries.length := by
  cases ht with
  | unused =>
    refine h.evict rfl (subset_cons_self _ _) (List.Subset.refl _) ?_ (.inl rfl) fun hash => ?_
    · rw [(h.unused _ mem_cons_self).2.1]
      exact Nat.zero_le _
    · rw [ite_self, append_nil]
  | expired =>
    exact h.evict rfl (List.Subset.refl _) (subset_cons_self _ _) (keyHash_le _ _) (.inr rfl)
      fun _ => chainOf_cons

/-- The entry that an update looks at, and that it takes unless it is too young. -/
theorem Rep.first_entry (hne : c.entries ≠ []) (hclock : ttl ≤ now) :
    ∃ a e, c.firstQueueEntry = some a ∧ c.entries[a]? = some e ∧
      (((now : Int) - e.time < ttl ∧ free = [] ∧
          ∃ d held', held = (a, d) :: held' ∧ (now : Int) - d.time < ttl) ∨
        (¬ (now : Int) - e.time < ttl ∧ ∃ free' held', Taken ttl now free held a free' held')) := by
  cases free with
  | cons n free =>
    obtain ⟨e, he, hitem⟩ := h.entry_of_mem (n := n) (by simp)
    refine ⟨n.1, e, h.queue.1, he, .inr ⟨?_, free, held, .unused⟩⟩
    have htime : e.time = 0 := by
      rw [hitem]
      exact (h.unused n mem_cons_self).2.2
    omega
  | nil =>
    cases held with
    | nil => exact absurd (length_eq_zero_iff.mp h.all.symm) hne
    | cons n held =>
      obtain ⟨e, he, hitem⟩ := h.entry_of_held (n := n) mem_cons_self
      have htime : e.time = n.2.time := by rw [hitem]; rfl
      refine ⟨n.1, e, h.queue.1, he, ?_⟩
      rw [htime]
      by_cases hyoung : (now : Int) - n.2.time < ttl
      · exact .inl ⟨hyoung, rfl, n.2, held, rfl, hyoung⟩
      · exact .inr ⟨hyoung, [], held, .expired (not_lt.mp hyoung)⟩

/-- **Updates.** An update is refused because the entry that was stored first is too young, or it
takes an entry and stores the value in it unless memory is refused. -/
theorem Rep.update_spec (htwo : 2 ≤ c.entries.length) (hclock : ttl ≤ now)
    {key : List UInt8} {val : Option CacheValue} (hfits : FitsInt key val) (mem : CacheMem) :
    (c.update ttl now key val mem = some (c, false) ∧ free = [] ∧
      ∃ a d held', held = (a, d) :: held' ∧ (now : Int) - d.time < ttl) ∨
    ∃ a free' held' c', Taken ttl now free held a free' held' ∧
      c'.hashTableSize = c.hashTableSize ∧ c'.entries.length = c.entries.length ∧
      ((c.update ttl now key val mem = some (c', false) ∧ ¬ Served val mem ∧
          ∃ it, c'.Rep ((a, it) :: free') held') ∨
        (c.update ttl now key val mem = some (c', true) ∧
          c'.Rep free' (held' ++ [(a, ⟨key, now, wholeValue val⟩)]))) := by
  obtain ⟨a, e, hfirst, he, hcase⟩ := h.first_entry (ne_nil_of_length_pos (by omega)) hclock
  unfold update
  simp only [hfirst, he, Option.bind_eq_bind, Option.bind_some]
  rcases hcase with ⟨hyoung, hfree, d, held', hheld, hd⟩ | ⟨hold, free', held', ht⟩
  · exact .inl ⟨if_pos hyoung, hfree, a, d, held', hheld, hd⟩
  obtain ⟨c₁, it, hevict, hrep, hsize, hlen⟩ := h.evict_taken ht
  obtain ⟨e₁, he₁, hitem⟩ := hrep.entry_of_mem (n := (a, it)) (by simp)
  have hunused := hrep.unused (a, it) mem_cons_self
  rw [if_neg hold, hevict, Option.bind_some, he₁, Option.bind_some, hitem]
  rcases store_spec hfits it mem with ⟨it', hstore, hkey, hhash, htime, hserved⟩ | ⟨it', hstore, hit'⟩
  · refine .inr ⟨a, free', held', { c₁ with entries := c₁.entries.set a { e₁ with toCacheItem := it' } },
      ht, hsize, length_set.trans hlen, .inl ⟨?_, hserved, it', ?_⟩⟩
    · rw [hstore, Option.bind_some]
      exact if_neg Bool.false_ne_true
    · exact hrep.set_unused he₁ ⟨hkey, hhash.trans hunused.2.1, htime.trans hunused.2.2⟩
  · obtain ⟨c₂, hrequeue, hrep₂, hsize₂, hlen₂⟩ := hrep.requeue (by omega)
      (d := ⟨key, now, wholeValue val⟩) (wholeValue_ne val)
    refine .inr ⟨a, free', held', c₂, ht, hsize₂.trans hsize, hlen₂.trans hlen, .inr ⟨?_, hrep₂⟩⟩
    rw [hstore, Option.bind_some]
    rw [if_pos rfl, hit', ← hsize, hrequeue, Option.bind_some]

end Update

end LocalCache

/-! ## Runs -/

inductive LocalOp where
  | search (key : List UInt8) (dup : Dup)
  | update (key : List UInt8) (val : Option CacheValue) (mem : CacheMem)

/-- A call, at the time that the clock shows. -/
structure LocalCall where
  now : Nat
  op : LocalOp

/-- The cache, what the updates have stored and the time of the last call. -/
structure LocalState where
  cache : LocalCache
  log : List Stored
  clock : Nat

/-- A new cache; the clock starts at `ttl`. -/
def LocalState.start (ttl : Int) (c : LocalCache) : LocalState :=
  { cache := c, log := [], clock := ttl.toNat }

def LocalState.step (ttl : Int) (s : LocalState) (i : LocalCall) : LocalState :=
  match i.op with
  | .search _ _ => { s with clock := i.now }
  | .update key val mem =>
    match s.cache.update ttl i.now key val mem with
    | none => { s with clock := i.now }
    | some (c, false) => { s with cache := c, clock := i.now }
    | some (c, true) =>
      { cache := c, log := s.log ++ [⟨key, i.now, wholeValue val⟩], clock := i.now }

/-- What a search makes of a value: the value itself if there is no `dup_from_cache`. -/
def Dup.value (dup : Dup) : Option (List UInt8) → Option (List UInt8)
  | none => none
  | some b =>
    match dup with
    | .call dupFromCache => dupFromCache b
    | .buffer _ => some b

/-- A search returns what was stored last under the key if it is younger than `ttl`, and returns
nothing else and nothing that is older than `ttl`. -/
def SearchRight (ttl : Int) (s : LocalState) (now : Nat) (key : List UInt8) (dup : Dup) : Prop :=
  ∃ found, s.cache.search ttl now key dup = some found ∧
    (∀ d, latest key s.log = some d → (now : Int) - d.time < ttl →
      found = .key (dup.value d.val)) ∧
    ∀ v, found = .key v →
      ∃ d, latest key s.log = some d ∧ (now : Int) - d.time ≤ ttl ∧ v = dup.value d.val

/-- An update keeps the entries that are younger than `ttl`. If there are no others it is refused,
and only then if memory is not. -/
def UpdateRight (ttl : Int) (s : LocalState) (now : Nat) (key : List UInt8)
    (val : Option CacheValue) (mem : CacheMem) : Prop :=
  ∃ c' ok, s.cache.update ttl now key val mem = some (c', ok) ∧
    (∀ (a : Nat) (e : CacheEntry), s.cache.entries[a]? = some e → e.key ≠ none →
      (now : Int) - e.time < ttl → ∃ e' : CacheEntry, c'.entries[a]? = some e' ∧ e'.toCacheItem = e.toCacheItem) ∧
    ((∀ e ∈ s.cache.entries, e.key ≠ none ∧ (now : Int) - e.time < ttl) →
      ok = false ∧ c' = s.cache) ∧
    (ok = false →
      (∀ e ∈ s.cache.entries, e.key ≠ none ∧ (now : Int) - e.time < ttl) ∨ ¬ Served val mem)

def LocalState.Right (ttl : Int) (s : LocalState) (i : LocalCall) : Prop :=
  match i.op with
  | .search key dup => SearchRight ttl s i.now key dup
  | .update key val mem => UpdateRight ttl s i.now key val mem

/-- The clock does not go back. -/
def LocalState.Ticks (s : LocalState) (i : LocalCall) : Prop := s.clock ≤ i.now

/-- A search that has to copy a value without `dup_from_cache` gets its buffer, and the sizes given
to an update fit an `int`. -/
def LocalState.Sound (ttl : Int) (s : LocalState) (i : LocalCall) : Prop :=
  match i.op with
  | .search key dup => ∀ d, latest key s.log = some d → (i.now : Int) - d.time ≤ ttl →
      d.val ≠ none → dup ≠ .buffer false
  | .update key val _ => FitsInt key val

/-! ## The invariant -/

/-- What the entries in use hold is the last part of the log; the part before it is old. -/
structure LocalState.Tracks (ttl : Int) (s : LocalState) (free : List (Nat × CacheItem))
    (held : List (Nat × Stored)) (evicted : List Stored) : Prop where
  rep : s.cache.Rep free held
  two : 2 ≤ s.cache.entries.length
  log : s.log = evicted ++ held.map Prod.snd
  old : ∀ d ∈ evicted, ttl ≤ s.clock - d.time
  sorted : held.Pairwise fun n m => n.2.time ≤ m.2.time
  past : ∀ n ∈ held, n.2.time ≤ s.clock
  started : ttl ≤ s.clock

def LocalState.Inv (ttl : Int) (s : LocalState) : Prop :=
  ∃ free held evicted, s.Tracks ttl free held evicted

/-- What is not too old is answered with its value. -/
theorem Stored.answer_eq {d : Stored} {ttl : Int} {now : Nat} {dup : Dup}
    (hage : (now : Int) - d.time ≤ ttl) (hdup : d.val ≠ none → dup ≠ .buffer false) :
    d.answer ttl now dup = some (.key (dup.value d.val)) := by
  unfold Stored.answer
  rw [if_neg (not_lt.mpr hage)]
  obtain ⟨key, time, val⟩ := d
  cases val with
  | none => rfl
  | some b =>
    match dup with
    | .call _ | .buffer true => rfl
    | .buffer false => exact absurd rfl (hdup (by simp))

namespace LocalState

section Steps

variable {ttl : Int} {s : LocalState} {now : Nat}

theorem Inv.search_right (h : s.Inv ttl) (hnow : s.clock ≤ now) {key : List UInt8} {dup : Dup}
    (hsound : ∀ d, latest key s.log = some d → (now : Int) - d.time ≤ ttl →
      d.val ≠ none → dup ≠ .buffer false) : SearchRight ttl s now key dup := by
  obtain ⟨free, held, evicted, ht⟩ := h
  have hlatest : latest key s.log = (latest key (held.map Prod.snd)).or (latest key evicted) := by
    rw [ht.log, latest, reverse_append, find?_append]
    rfl
  unfold SearchRight
  rw [ht.rep.search_spec]
  cases hheld : latest key (held.map Prod.snd) with
  | none =>
    -- all that was stored under the key is gone, so it is old
    refine ⟨.null, rfl, fun d hd hyoung => ?_, fun v hv => Found.noConfusion hv⟩
    rw [hlatest, hheld] at hd
    have hold := ht.old d (mem_reverse.mp (mem_of_find?_eq_some hd))
    omega
  | some d =>
    rw [hheld, Option.some_or] at hlatest
    by_cases hage : (now : Int) - d.time ≤ ttl
    · refine ⟨_, Stored.answer_eq hage (hsound d hlatest hage), fun d' hd' _ => ?_, fun v hv => ?_⟩
      · rw [hlatest, Option.some.injEq] at hd'
        rw [hd']
      · rw [Found.key.injEq] at hv
        exact ⟨d, hlatest, hage, hv.symm⟩
    · refine ⟨.null, if_pos (not_le.mp hage), fun d' hd' hyoung => ?_,
        fun v hv => Found.noConfusion hv⟩
      rw [hlatest, Option.some.injEq] at hd'
      rw [hd'] at hage
      omega

variable {free free' : List (Nat × CacheItem)} {held held' : List (Nat × Stored)} {a : Nat}

/-- What is younger than `ttl` is not taken. -/
theorem young_of_taken
    (ht : Taken ttl now free held a free' held') {n : Nat × Stored} (hn : n ∈ held)
    (hyoung : (now : Int) - n.2.time < ttl) : n ∈ held' := by
  cases ht with
  | unused => exact hn
  | expired hold =>
    rcases mem_cons.mp hn with rfl | hmem
    · exact absurd hold (not_le.mpr hyoung)
    · exact hmem

/-- If all entries are in use and young, none of them can be taken. -/
theorem not_taken (h : s.cache.Rep free held)
    (hall : ∀ e ∈ s.cache.entries, e.key ≠ none ∧ (now : Int) - e.time < ttl) :
    ¬ Taken ttl now free held a free' held' := by
  intro ht
  cases ht with
  | unused =>
    obtain ⟨e, he, hitem⟩ := h.entry_of_mem mem_cons_self
    refine (hall e (mem_of_getElem? he)).1 ?_
    rw [hitem]
    exact (h.unused _ mem_cons_self).1
  | expired hold =>
    obtain ⟨e, he, hitem⟩ := h.entry_of_held mem_cons_self
    have hyoung := (hall e (mem_of_getElem? he)).2
    rw [hitem] at hyoung
    exact absurd hold (not_le.mpr hyoung)

theorem Inv.update_right (h : s.Inv ttl) (hnow : s.clock ≤ now) {key : List UInt8}
    {val : Option CacheValue} (hfits : FitsInt key val) (mem : CacheMem) :
    UpdateRight ttl s now key val mem := by
  obtain ⟨free, held, evicted, ht⟩ := h
  have hstarted := ht.started
  have hclock : ttl ≤ now := by omega
  rcases ht.rep.update_spec ht.two hclock hfits mem with
    ⟨hupdate, rfl, a, d, held', rfl, hyoung⟩ | ⟨a, free', held', c', htaken, hsize, hlen, hcase⟩
  · refine ⟨s.cache, false, hupdate, fun a e he _ _ => ⟨e, he, rfl⟩, fun _ => ⟨rfl, rfl⟩,
      fun _ => .inl fun e he => ?_⟩
    -- the others were stored later
    obtain ⟨x, hx⟩ := mem_iff_getElem?.mp he
    obtain ⟨n, hn, rfl⟩ := mem_map.mp (ht.rep.mem_addrs (List.getElem?_eq_some_iff.mp hx).1)
    obtain ⟨e', he', hitem⟩ := ht.rep.entry_of_held hn
    obtain rfl : e = e' := Option.some.inj (hx.symm.trans he')
    have htime : d.time ≤ n.2.time := by
      rcases mem_cons.mp hn with rfl | hmem
      · exact le_rfl
      · exact (pairwise_cons.mp ht.sorted).1 n hmem
    rw [hitem]
    refine ⟨Option.some_ne_none _, ?_⟩
    change (now : Int) - n.2.time < ttl
    omega
  · have hkept : ∀ held'', c'.Rep free' held'' ∨ (∃ it, c'.Rep ((a, it) :: free') held'') →
        (∀ n ∈ held', n ∈ held'') → ∀ (x : Nat) (e : CacheEntry), s.cache.entries[x]? = some e →
        e.key ≠ none → (now : Int) - e.time < ttl →
        ∃ e' : CacheEntry, c'.entries[x]? = some e' ∧ e'.toCacheItem = e.toCacheItem := by
      intro held'' hrep hsub x e he hkey hyoung
      obtain ⟨d, hd, hitem⟩ := ht.rep.held_of_entry he hkey
      have hmem : (x, d) ∈ held'' := by
        refine hsub _ (young_of_taken htaken hd ?_)
        rw [hitem] at hyoung
        exact hyoung
      rw [hitem, ← hsize]
      rcases hrep with hrep | ⟨it, hrep⟩
      all_goals exact hrep.entry_of_held hmem
    rcases hcase with ⟨hupdate, hserved, it, hrep⟩ | ⟨hupdate, hrep⟩
    · exact ⟨c', false, hupdate, hkept held' (.inr ⟨it, hrep⟩) fun n hn => hn,
        fun hall => absurd htaken (not_taken ht.rep hall), fun _ => .inr hserved⟩
    · exact ⟨c', true, hupdate, hkept _ (.inl hrep) fun n hn => mem_append_left _ hn,
        fun hall => absurd htaken (not_taken ht.rep hall), fun hok => Bool.noConfusion hok⟩

theorem Tracks.taken
    {evicted : List Stored} (ht : s.Tracks ttl free held evicted) (hnow : s.clock ≤ now)
    (htaken : Taken ttl now free held a free' held') :
    ∃ evicted', s.log = evicted' ++ held'.map Prod.snd ∧ (∀ d ∈ evicted', ttl ≤ now - d.time) ∧
      held'.Sublist held := by
  cases htaken with
  | unused =>
    refine ⟨evicted, ht.log, fun d hd => ?_, List.Sublist.refl _⟩
    have hold := ht.old d hd
    omega
  | @expired a d held' hage =>
    refine ⟨evicted ++ [d], ?_, fun d' hd' => ?_, sublist_cons_self _ _⟩
    · rw [ht.log, append_assoc]
      rfl
    · rcases mem_append.mp hd' with hmem | hmem
      · have hold := ht.old d' hmem
        omega
      · rw [mem_singleton.mp hmem]
        exact hage

theorem Inv.step {i : LocalCall} (h : s.Inv ttl) (hticks : s.Ticks i) (hsound : s.Sound ttl i) :
    (s.step ttl i).Inv ttl := by
  obtain ⟨free, held, evicted, ht⟩ := h
  obtain ⟨now, op⟩ := i
  have hnow : s.clock ≤ now := hticks
  have hstarted := ht.started
  have hclock : ttl ≤ now := by omega
  have hlater : { s with clock := now }.Tracks ttl free held evicted :=
    { ht with
      old := fun d hd => by
        have hold := ht.old d hd
        dsimp only
        omega
      past := fun n hn => (ht.past n hn).trans hnow
      started := hclock }
  cases op with
  | search key dup => exact ⟨free, held, evicted, hlater⟩
  | update key val mem =>
    unfold LocalState.step
    dsimp only
    rcases ht.rep.update_spec ht.two hclock hsound mem with
      ⟨hupdate, -⟩ | ⟨a, free', held', c', htaken, hsize, hlen, hcase⟩
    · rw [hupdate]
      exact ⟨free, held, evicted, hlater⟩
    obtain ⟨evicted', hlog, hold, hsub⟩ := ht.taken hnow htaken
    have htwo : 2 ≤ c'.entries.length := hlen ▸ ht.two
    have htimed : Timed now held' := Timed.mono ⟨ht.sorted, ht.past⟩ hsub hnow
    rcases hcase with ⟨hupdate, -, it, hrep⟩ | ⟨hupdate, hrep⟩
    · rw [hupdate]
      exact ⟨_, held', evicted', hrep, htwo, hlog, hold, htimed.1, htimed.2, hclock⟩
    · rw [hupdate]
      have htimed' := htimed.concat a key (wholeValue val)
      refine ⟨free', _, evicted', hrep, htwo, ?_, hold, htimed'.1, htimed'.2, hclock⟩
      rw [hlog, map_append, append_assoc]
      rfl

theorem Inv.right {i : LocalCall} (h : s.Inv ttl) (hticks : s.Ticks i) (hsound : s.Sound ttl i) :
    s.Right ttl i := by
  obtain ⟨now, op⟩ := i
  cases op with
  | search key dup => exact h.search_right hticks hsound
  | update key val mem => exact h.update_right hticks hsound mem

theorem inv_start {memSize maxObjectSize : Nat} {c : LocalCache}
    (hinit : LocalCache.init memSize maxObjectSize = some c) (htwo : 2 ≤ c.entries.length) :
    (start ttl c).Inv ttl :=
  ⟨_, [], [], LocalCache.rep_init hinit, htwo, rfl, (nofun), List.Pairwise.nil,
    (nofun), Int.self_le_toNat ttl⟩

end Steps

end LocalState

/-- Every step of every run of a cache with two entries or more, with a clock that starts at `ttl`
and does not go back, is right as long as the searches get their buffers and sizes fit an `int`. -/
theorem local_cache_right (memSize maxObjectSize : Nat) (ttl : Int) (c : LocalCache)
    (hinit : LocalCache.init memSize maxObjectSize = some c) (htwo : 2 ≤ c.entries.length)
    (calls : List LocalCall)
    (hcalls : Machine.AllSteps (LocalState.step ttl) (fun s i => s.Ticks i ∧ s.Sound ttl i)
      (.start ttl c) calls) :
    Machine.AllSteps (LocalState.step ttl) (LocalState.Right ttl) (.start ttl c) calls := by
  have hboth : Machine.AllSteps (LocalState.step ttl)
      (fun s i => (s.Ticks i ∧ s.Sound ttl i) ∧ s.Right ttl i) (.start ttl c) calls :=
    (Machine.allSteps_congr (P := LocalState.Inv ttl) (fun s i h => ⟨fun hok => ⟨hok, h.right hok.1 hok.2⟩, fun hok => hok.1⟩)
      (fun s i h hok => h.step hok.1 hok.2) (LocalState.inv_start hinit htwo) calls).mp hcalls
  exact hboth.imp fun s i h => h.2

/-- A value is stored and found, in a cache of three entries. -/
theorem local_cache_right_sample : ∃ c, LocalCache.init 200 10 = some c ∧
      Machine.AllSteps (LocalState.step 10) (LocalState.Right 10) (.start 10 c)
        [⟨10, .update (CText.bytes "key") (some (.bytes (CText.bytes "value"))) ⟨true, true⟩⟩,
         ⟨15, .search (CText.bytes "key") (.buffer true)⟩] := by
  refine ⟨_, rfl, local_cache_right 200 10 10 _ rfl (by decide) _ ⟨⟨?_, ?_, ?_⟩, ⟨?_, ?_⟩, trivial⟩⟩
  · unfold LocalState.Ticks
    decide
  · decide
  · intro v hv
    obtain rfl := Option.mem_some_iff.mp hv
    decide
  · unfold LocalState.Ticks
    decide +kernel
  · intro d _ _ _ hdup
    cases hdup

/-- A search without `dup_from_cache` whose buffer is refused writes to a null pointer. -/
theorem search_without_buffer : ∃ c, LocalCache.init 200 10 = some c ∧ 2 ≤ c.entries.length ∧
      Machine.AllSteps (LocalState.step 10) LocalState.Ticks (.start 10 c)
        [⟨10, .update (CText.bytes "key") (some (.bytes (CText.bytes "value"))) ⟨true, true⟩⟩,
         ⟨15, .search (CText.bytes "key") (.buffer false)⟩] ∧
      ¬ Machine.AllSteps (LocalState.step 10) (LocalState.Right 10) (.start 10 c)
        [⟨10, .update (CText.bytes "key") (some (.bytes (CText.bytes "value"))) ⟨true, true⟩⟩,
         ⟨15, .search (CText.bytes "key") (.buffer false)⟩] := by
  refine ⟨_, rfl, by decide, ⟨?_, ?_, trivial⟩, ?_⟩
  · unfold LocalState.Ticks
    decide
  · unfold LocalState.Ticks
    decide +kernel
  · rintro ⟨-, ⟨found, hfound, -⟩, -⟩
    have hnone : ((LocalState.step 10 (.start 10 ((LocalCache.init 200 10).get rfl))
        ⟨10, .update (CText.bytes "key") (some (.bytes (CText.bytes "value")))
          ⟨true, true⟩⟩).cache.search 10 15 (CText.bytes "key") (.buffer false)) = none := by
      decide +kernel
    exact Option.some_ne_none found (hfound.symm.trans hnone)

end CIcap
