import CIcap.Lib.Links
import CIcap.Lookup.Table

/-! # The local cache

The cache of `cache.c` that is not shared between processes. Its entries are allocated once, when
the cache is built. An entry is linked twice: `qnext` leads through all entries from the one that
was stored first to the one that was stored last, and `hnext` through the entries in use whose keys
have the same hash, from the newest to the oldest. An address is the position of an entry.

`none` stands for a null pointer that is followed and for a copy that leaves its buffer.
-/

namespace CIcap

/-! ## Entries -/

/-- What an entry holds besides its links. -/
structure CacheItem where
  hash : Nat
  time : Nat
  key : Option (List UInt8)
  val : Option (List UInt8)
  valSize : Int
deriving DecidableEq, Repr

/-- `struct ci_cache_entry` -/
structure CacheEntry extends CacheItem where
  qnext : Option Nat
  hnext : Option Nat
deriving DecidableEq, Repr

/-- `struct ci_local_cache_data` -/
structure LocalCache where
  firstQueueEntry : Option Nat
  lastQueueEntry : Option Nat
  hashTable : List (Option Nat)
  hashTableSize : Nat
  entries : List CacheEntry
deriving DecidableEq, Repr

/-- An entry as `ci_local_cache_init` leaves it. -/
def CacheItem.unused : CacheItem := { hash := 0, time := 0, key := none, val := none, valSize := 0 }

/-- `sizeof(struct ci_cache_entry)` -/
def cacheEntrySize : Nat := 56

/-- `ci_local_cache_init` where memory is not refused; `none` if there is no room for an entry. -/
def LocalCache.init (memSize maxObjectSize : Nat) : Option LocalCache :=
  let cacheItems := memSize / (maxObjectSize + cacheEntrySize)
  if cacheItems = 0 then none
  else some
    { firstQueueEntry := some 0
      lastQueueEntry := some (cacheItems - 1)
      hashTable := List.replicate (hashSize cacheItems + 1) none
      hashTableSize := hashSize cacheItems
      entries := (List.range cacheItems).map fun i =>
        { CacheItem.unused with
          qnext := if i + 1 < cacheItems then some (i + 1) else none
          hnext := none } }

/-- The entries as cells of the chains of the hash table. -/
def hcells (entries : List CacheEntry) : List (Links.Cell CacheItem) :=
  entries.map fun e => ⟨e.toCacheItem, e.hnext⟩

/-- The entries as cells of the queue. -/
def qcells (entries : List CacheEntry) : List (Links.Cell CacheItem) :=
  entries.map fun e => ⟨e.toCacheItem, e.qnext⟩

def keyHash (size : Nat) (key : List UInt8) : Nat :=
  hashCompute size (strOps.mem key) (strOps.size key)

/-! ## Search -/

/-- How a search copies a value: into a buffer that is given or not, or by `dup_from_cache`. -/
inductive Dup where
  | buffer (given : Bool)
  | call (dupFromCache : List UInt8 → Option (List UInt8))

/-- What a search returns: a null pointer, or the key with the copy of the value. -/
inductive Found where
  | null
  | key (val : Option (List UInt8))
deriving DecidableEq, Repr

/-- The copy of a value that is not empty; `memcpy` does not look whether there is a buffer. -/
def Dup.copy (stored : List UInt8) : Dup → Option Found
  | .call dupFromCache => some (.key (dupFromCache stored))
  | .buffer true => some (.key (some stored))
  | .buffer false => none

/-- What `ci_local_cache_search` does with the entry of the key. -/
def CacheItem.answer (ttl : Int) (now : Nat) (dup : Dup) (e : CacheItem) : Option Found := do
  if ttl < now - e.time then some .null
  else if e.valSize = 0 then some (.key none)
  else
    let val ← e.val
    dup.copy (val.take e.valSize.toNat)

/-- `ci_local_cache_search` -/
def LocalCache.search (ttl : Int) (c : LocalCache) (now : Nat) (key : List UInt8) (dup : Dup) :
    Option Found := do
  let start ← c.hashTable[keyHash c.hashTableSize key]?
  let same (e : Links.Cell CacheItem) : Bool := e.item.key.all fun k => strOps.equal k key
  match ← Links.search (hcells c.entries) same (c.entries.length + 1) none start with
  | none => some .null
  | some (_, _, e) =>
    -- the comparison follows the pointer to the key
    let _ ← e.item.key
    e.item.answer ttl now dup

/-! ## Update -/

/-- The value of an update: bytes for `memcpy`, or an object that `copy_to_cache` writes to the
buffer it is given, unless it gives up. -/
inductive CacheValue where
  | bytes (b : List UInt8)
  | object (size : Nat) (copyToCache : (bufSize : Nat) → Option (Vector UInt8 bufSize))

def CacheValue.size : CacheValue → Nat
  | .bytes b => b.length
  | .object size _ => size

/-- What the buffer holds when the value has been copied to it. -/
def CacheValue.copy (bufSize : Nat) : CacheValue → Option (List UInt8)
  | .bytes b => some (b.take bufSize)
  | .object _ copyToCache => (copyToCache bufSize).map Vector.toList

/-- The value of an update as it was given; an empty one is a null pointer. -/
def wholeValue : Option CacheValue → Option (List UInt8)
  | none => none
  | some v => if v.size = 0 then none else v.copy v.size

theorem length_copy {v : CacheValue} {b : List UInt8} (h : v.copy v.size = some b) :
    b.length = v.size := by
  cases v with
  | bytes b' =>
    rw [CacheValue.copy, Option.some.injEq] at h
    rw [← h]
    exact List.length_take_of_le le_rfl
  | object size copyToCache =>
    rw [CacheValue.copy, Option.map_eq_some_iff] at h
    obtain ⟨vec, -, rfl⟩ := h
    exact Vector.length_toList

theorem wholeValue_ne (val : Option CacheValue) : wholeValue val ≠ some [] := by
  unfold wholeValue
  split
  · simp
  · split_ifs with hsize
    · simp
    · intro hcopy
      exact hsize (length_copy hcopy).symm

/-- Whether the allocations of an update are served. -/
structure CacheMem where
  key : Bool
  val : Bool
deriving DecidableEq, Repr

/-- The conversion of a `size_t` to an `int`. -/
def sizeInt (n : Nat) : Int := Int.bmod n (2 ^ 32)

/-- The key and the value of the entry are freed. -/
def CacheEntry.release (e : CacheEntry) : CacheEntry :=
  { e with key := none, val := if 0 < e.valSize then none else e.val }

/-- The entry `a` is taken out of the chain that its hash names. -/
def LocalCache.unlink (c : LocalCache) (a : Nat) : Option LocalCache := do
  let e ← c.entries[a]?
  let tmp ← c.hashTable[e.hash]?
  if tmp = some a then some { c with hashTable := c.hashTable.set e.hash e.hnext }
  else
    let last (e : Links.Cell CacheItem) : Bool := e.next = none || e.next = some a
    match ← Links.search (hcells c.entries) last (c.entries.length + 1) none tmp with
    | none => some c
    | some (_, t, cell) =>
      match cell.next with
      | none => some c
      | some next => do
          let before ← c.entries[t]?
          let next ← c.entries[next]?
          some { c with entries := c.entries.set t { before with hnext := next.hnext } }

/-- The entry `a` becomes one that is not in use. -/
def LocalCache.evict (c : LocalCache) (a : Nat) : Option LocalCache := do
  let e ← c.entries[a]?
  let c ← { c with entries := c.entries.set a e.release }.unlink a
  let e ← c.entries[a]?
  some { c with entries := c.entries.set a { e with hnext := none, time := 0, hash := 0 } }

/-- The key and the value are copied; `false` if memory is refused or `copy_to_cache` gives up.
A negative `key_size` is a number of bytes that no allocator serves, and a copy of a key that
`key_size` cuts has no zero at its end. -/
def CacheItem.store (e : CacheItem) (key : List UInt8) (val : Option CacheValue) (mem : CacheMem) :
    Option (CacheItem × Bool) :=
  let keySize := sizeInt (strOps.size key)
  if mem.key = false ∨ keySize < 0 then some ({ e with key := none }, false)
  else if keySize ≠ strOps.size key then none
  else
    match val with
    | none => some ({ e with key := some key, val := none, valSize := 0 }, true)
    | some v =>
      if v.size = 0 then some ({ e with key := some key, val := none, valSize := 0 }, true)
      else
        let valSize := sizeInt v.size
        if mem.val = false then some ({ e with key := none, val := none, valSize }, false)
        else if valSize < 0 then none
        else
          match v.copy valSize.toNat with
          | none => some ({ e with key := none, val := none, valSize }, false)
          | some b => some ({ e with key := some key, val := some b, valSize }, true)

/-- The entry `a`, the first of the queue, becomes the last one and the first of its chain. -/
def LocalCache.requeue (c : LocalCache) (a hash : Nat) (item : CacheItem) : Option LocalCache := do
  let e ← c.entries[a]?
  let last ← c.lastQueueEntry
  let first := e.qnext
  let entries := c.entries.set a { item with qnext := e.qnext, hnext := e.hnext }
  let l ← entries[last]?
  let entries := entries.set last { l with qnext := some a }
  let head ← c.hashTable[hash]?
  some { c with
    firstQueueEntry := first
    lastQueueEntry := some a
    hashTable := c.hashTable.set hash (some a)
    entries := entries.set a { item with qnext := none, hnext := head } }

/-- `ci_local_cache_update`, with its return value -/
def LocalCache.update (ttl : Int) (c : LocalCache) (now : Nat) (key : List UInt8)
    (val : Option CacheValue) (mem : CacheMem) : Option (LocalCache × Bool) := do
  let hash := keyHash c.hashTableSize key
  let a ← c.firstQueueEntry
  let e ← c.entries[a]?
  if (now : Int) - e.time < ttl then some (c, false)
  else
    let c ← c.evict a
    let e ← c.entries[a]?
    let (item, stored) ← e.toCacheItem.store key val mem
    if stored then
      let c ← c.requeue a hash { item with hash, time := now }
      some (c, true)
    else some ({ c with entries := c.entries.set a { e with toCacheItem := item } }, false)

end CIcap
