import CIcap.Cache.Local
import CIcap.Lib.Segments

/-! # The shared cache

The cache of `shared_cache.c`, a table of slots in shared memory. An entry is stored in the first
slot from the one its hash names on that an update may take, within a page. A slot is a header and
`room` bytes behind it, for the key with its zero and, one byte further, the value. The check of an
update does not count this byte, so that a value that just passes it ends in the byte behind the
slot: the lowest byte of the hash of the next slot.

`none` stands for an access behind the last slot.
-/

namespace CIcap

open List

/-- `sizeof(struct shared_cache_slot)` -/
def slotHeader : Nat := 32

/-- `struct shared_cache_slot` with `room` bytes behind its header -/
structure SharedSlot (room : Nat) where
  hash : Nat
  expires : Int
  keySize : Nat
  valueSize : Nat
  bytes : List UInt8
  length_bytes : bytes.length = room
  fits : keySize + valueSize ≤ room
deriving DecidableEq

def cachePages : Nat := 4

/-- `struct shared_cache_data` with slots of `entrySize` bytes -/
structure SharedCache (entrySize : Nat) where
  maxHash : Nat
  pageSize : Nat
  slots : List (SharedSlot (entrySize - slotHeader))
  hash_lt : maxHash < slots.length
  pages : slots.length = cachePages * pageSize

/-! ## The empty cache -/

/-- `_CI_ALIGN` -/
def alignSize (n : Nat) : Nat := (n + 7) / 8 * 8

/-- A power of two, at least 64 and otherwise less than or equal to `entries`. -/
def sharedEntries (entries : Nat) : Nat :=
  -- the loop has at most one step for each bit of an `int`
  ((range 32).foldl (fun (h : Nat × Nat) _ =>
    if h.1 < entries then ((h.1 + 1) * 2 - 1, h.1) else h) (63, 63)).2 + 1

theorem sharedEntries_dvd (entries : Nat) : cachePages ∣ sharedEntries entries := by
  have hloop : ∀ (steps : List Nat) (h : Nat × Nat), 4 ∣ h.1 + 1 → 4 ∣ h.2 + 1 →
      4 ∣ (steps.foldl (fun (h : Nat × Nat) _ =>
        if h.1 < entries then ((h.1 + 1) * 2 - 1, h.1) else h) h).2 + 1 := by
    intro steps
    induction steps with
    | nil => exact fun h _ h2 => h2
    | cons i steps ih =>
      intro h h1 h2
      rw [foldl_cons]
      split_ifs
      · exact ih _ (by dsimp only; omega) h1
      · exact ih h h1 h2
  exact hloop (range 32) (63, 63) (by decide) (by decide)

theorem SharedSlot.length_zero (room : Nat) : (replicate room (0 : UInt8)).length = room :=
  length_replicate

/-- The memory of a slot when it is created. -/
def SharedSlot.zero (room : Nat) : SharedSlot room :=
  { hash := 0, expires := 0, keySize := 0, valueSize := 0, bytes := replicate room 0
    length_bytes := length_zero room, fits := Nat.zero_le _ }

def slotSize (maxObjectSize : Nat) : Nat :=
  alignSize (if 0 < maxObjectSize then maxObjectSize else 1)

/-- `ci_shared_cache_init` -/
def SharedCache.init (memSize maxObjectSize : Nat) : SharedCache (slotSize maxObjectSize) :=
  let entries := sharedEntries (alignSize memSize / slotSize maxObjectSize)
  { maxHash := entries - 1
    pageSize := entries / cachePages
    slots := replicate entries (SharedSlot.zero (slotSize maxObjectSize - slotHeader))
    hash_lt := by rw [length_replicate]; exact Nat.sub_lt (Nat.succ_pos _) Nat.one_pos
    pages := by
      rw [length_replicate]
      exact (Nat.mul_div_cancel' (sharedEntries_dvd _)).symm }

/-! ## Search -/

/-- `compare(slot->bytes, key) == 0` of strings -/
def SharedSlot.same {room : Nat} (slot : SharedSlot room) (key : List UInt8) : Bool :=
  (key ++ [0]).isPrefixOf slot.bytes

/-- The copy of a value; there is none if `ci_buffer_alloc` fails. -/
def Dup.give (stored : List UInt8) : Dup → Option (List UInt8)
  | .call dupFromCache => dupFromCache stored
  | .buffer true => some stored
  | .buffer false => none

namespace SharedCache

variable {entrySize : Nat}

/-- The value in the slot at `pos`, with the byte behind the slot if it ends there. -/
def value (c : SharedCache entrySize) (pos : Nat) (slot : SharedSlot (entrySize - slotHeader)) :
    Option (List UInt8) := do
  let inside := (slot.bytes.drop (slot.keySize + 1)).take slot.valueSize
  if inside.length < slot.valueSize then
    let next ← c.slots[pos + 1]?
    some (inside ++ [UInt8.ofNat next.hash])
  else some inside

/-- The loop of `ci_shared_cache_search` -/
def searchFrom (c : SharedCache entrySize) (now : Int) (key : List UInt8) (dup : Dup) (hash : Nat) :
    Nat → Nat → Option Found
  | 0, _ => some .null
  | fuel + 1, pos =>
    if pos / c.pageSize ≠ hash / c.pageSize then some .null
    else do
      let slot ← c.slots[pos]?
      if slot.hash ≠ hash then some .null
      else if slot.same key ∧ now ≤ slot.expires then
        if slot.valueSize = 0 then some (.key none)
        else
          let val ← c.value pos slot
          some (.key (dup.give val))
      else searchFrom c now key dup hash fuel (pos + 1)

/-- `ci_shared_cache_search` -/
def search (c : SharedCache entrySize) (now : Int) (key : List UInt8) (dup : Dup) : Option Found :=
  let hash := keyHash c.maxHash key
  c.searchFrom now key dup hash c.slots.length hash

/-! ## Update -/

/-- The loop of `ci_shared_cache_update`: the slot that it takes -/
def victimFrom (c : SharedCache entrySize) (ttl now : Int) (key : List UInt8) (hash : Nat) :
    Nat → Nat → Option Nat
  | 0, _ => none
  | fuel + 1, pos =>
    if hash / c.pageSize ≠ pos / c.pageSize then none
    else do
      let slot ← c.slots[pos]?
      if slot.hash < hash then some pos
      else if slot.same key then some pos
      else if slot.expires < now + ttl then some pos
      else if pos = hash ∧ slot.expires < now + ttl.tdiv 2 then some pos
      else if pos ≠ hash ∧ slot.hash = pos then none
      else victimFrom c ttl now key hash fuel (pos + 1)

def victim (c : SharedCache entrySize) (ttl now : Int) (key : List UInt8) : Option Nat :=
  let hash := keyHash c.maxHash key
  c.victimFrom ttl now key hash c.slots.length hash

end SharedCache

/-- What is written to the buffer of the value, if anything is. -/
def CacheValue.data (val : CacheValue) : List UInt8 := (wholeValue (some val)).getD []

/-- The bytes of a slot when the key and the value have been copied. -/
def slotBytes (bytes key : List UInt8) (val : CacheValue) : List UInt8 :=
  let start := strOps.size key + 1
  Segments.write (Segments.write bytes 0 (key ++ [0])) start (val.data.take (bytes.length - start))

/-- The byte that is written behind a slot. -/
def byteBehind (room : Nat) (key : List UInt8) (val : CacheValue) : Option UInt8 :=
  val.data[room - (strOps.size key + 1)]?

theorem length_slotBytes {bytes key : List UInt8} (hkey : strOps.size key ≤ bytes.length)
    (val : CacheValue) : (slotBytes bytes key val).length = bytes.length := by
  have hfirst : (Segments.write bytes 0 (key ++ [0])).length = bytes.length :=
    Segments.length_write (by simpa [strOps] using hkey)
  unfold slotBytes
  rw [Segments.write, length_append, length_append, length_take, length_drop, length_take]
  omega

namespace SharedSlot

variable {room : Nat}

/-- A slot that an update has taken. -/
def fill (slot : SharedSlot room) (pos : Nat) (expires : Int) (key : List UInt8) (val : CacheValue)
    (h : strOps.size key + val.size ≤ room) : SharedSlot room :=
  { hash := pos
    expires := expires
    keySize := strOps.size key
    valueSize := val.size
    bytes := slotBytes slot.bytes key val
    length_bytes := by
      rw [length_slotBytes (by rw [slot.length_bytes]; omega), slot.length_bytes]
    fits := h }

/-- The lowest byte of the hash is overwritten. -/
def smash (slot : SharedSlot room) (b : UInt8) : SharedSlot room :=
  { slot with hash := slot.hash / 256 * 256 + b.toNat }

end SharedSlot

namespace SharedCache

variable {entrySize : Nat}

def set (c : SharedCache entrySize) (pos : Nat) (slot : SharedSlot (entrySize - slotHeader)) : SharedCache entrySize :=
  { c with
    slots := c.slots.set pos slot
    hash_lt := by rw [length_set]; exact c.hash_lt
    pages := by rw [length_set]; exact c.pages }

/-- The slot at `pos` is filled, and the byte behind it written if the value ends there. -/
def store (c : SharedCache entrySize) (pos : Nat) (expires : Int) (key : List UInt8) (val : CacheValue)
    (h : strOps.size key + val.size ≤ entrySize - slotHeader) : Option (SharedCache entrySize) := do
  let slot ← c.slots[pos]?
  match byteBehind (entrySize - slotHeader) key val with
  | none => some (c.set pos (slot.fill pos expires key val h))
  | some b =>
    let next ← c.slots[pos + 1]?
    some ((c.set pos (slot.fill pos expires key val h)).set (pos + 1) (next.smash b))

theorem room_of_fits {key : List UInt8} {val : CacheValue}
    (h : strOps.size key + val.size + slotHeader ≤ entrySize) :
    strOps.size key + val.size ≤ entrySize - slotHeader := by
  omega

/-- `ci_shared_cache_update`, with its return value -/
def update (c : SharedCache entrySize) (ttl now : Int) (key : List UInt8) (val : CacheValue) :
    Option (SharedCache entrySize × Bool) :=
  if h : strOps.size key + val.size + slotHeader ≤ entrySize then
    match c.victim ttl now key with
    | none => some (c, false)
    | some pos => (c.store pos (now + ttl) key val (room_of_fits h)).map fun c => (c, true)
  else some (c, false)

/-! ## What an update should do -/

/-- What the code calls near to expire: an entry that is expired, or one in the slot that the hash
of the new key names with less than half of `ttl` left. -/
def NearExpiry (c : SharedCache entrySize) (ttl now : Int) (key : List UInt8) (pos : Nat)
    (slot : SharedSlot (entrySize - slotHeader)) : Prop :=
  slot.expires < now ∨ (pos = keyHash c.maxHash key ∧ slot.expires < now + ttl.tdiv 2)

/-- The slot may be given to the key: it is not in use, holds an entry of the same key or one that
is near to expire. -/
def Spare (c : SharedCache entrySize) (ttl now : Int) (key : List UInt8) (pos : Nat)
    (slot : SharedSlot (entrySize - slotHeader)) : Prop :=
  slot.keySize = 0 ∨ slot.same key ∨ c.NearExpiry ttl now key pos slot

/-- A successful update is found until it expires, and leaves the other entries as they are unless
they are near to expire. -/
def UpdateRight (c : SharedCache entrySize) (ttl now : Int) (key : List UInt8) (val : CacheValue) : Prop :=
  c.update ttl now key val ≠ none ∧ ∀ c', c.update ttl now key val = some (c', true) →
    (∀ later dup, later ≤ now + ttl →
      c'.search later key dup = some (.key ((wholeValue (some val)).bind fun b => dup.give b))) ∧
    ∀ pos slot, c.slots[pos]? = some slot → ¬ c.Spare ttl now key pos slot →
      c'.slots[pos]? = some slot

end SharedCache

end CIcap
