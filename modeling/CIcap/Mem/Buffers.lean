import CIcap.Lib.Machine
import Mathlib.Data.UInt

/-! # Buffers from pools

`ci_buffer_alloc` of `mem.c` takes a buffer of up to 32768 bytes from one of ten pools of blocks of
equal size and a larger one from `malloc`. In front of the data a block keeps a signature and the
size that was asked for (its `ID`). Where a block came from is not kept: `ci_buffer_free` and
`ci_buffer_realloc` infer it from the `ID`, and a reallocation in place writes a new `ID`.

A block is modelled with what the code does not know of it: the address and the size of the memory
`malloc` gave for it, and the pool it was taken from last. Sizes are `size_t`, so they are `UInt64`;
the index into the tables is an `int`, to which the shifted size is cut.
-/

namespace CIcap

/-- `PTR_OFFSET` and `MEM_BLOCK_DATA_OFFSET`: the heads of a buffer and of a block of a pool. -/
def ptrOffset : Nat := 16

/-- The pools by the positions of `Pools`, or the heap. -/
inductive BufSource
  | pool (i : Nat)
  | heap
deriving DecidableEq, Repr

/-- The size of the blocks of a pool, from `BUF64_POOL` to `BUF32768_POOL`. -/
def poolSize (i : Nat) : Nat := 64 * 2 ^ i

/-- `BUF_END_POOL`. -/
def bufEndPool : Nat := 10

/-- The positions in `Pools` that `short_buffers` and `long_buffers` hold. -/
def shortBuffers : List Nat := [0, 1, 2, 2, 3, 3, 3, 3, 4, 4, 4, 4, 4, 4, 4, 4]

def longBuffers : List Nat := [5, 6, 7, 7, 8, 8, 8, 8, 9, 9, 9, 9, 9, 9, 9, 9]

/-- `size - 1` for a `size_t`. -/
def sizeDec (n : UInt64) : Nat := if n = 0 then 18446744073709551615 else n.toNat - 1

/-- The bits of `type = (size - 1) >> 6`, which is an `int` of 32 bits. -/
def bufferType (n : UInt64) : Nat := sizeDec n / 64 % 4294967296

/-- Where the functions look for a size; `none` is an access in front of the tables, with a negative
type. -/
def bufferSource (n : UInt64) : Option BufSource :=
  let type := bufferType n
  if 2147483648 ≤ type then none
  else if type < 16 then some (.pool (shortBuffers.getD type 0))
  else if type < 512 then some (.pool (longBuffers.getD (type / 32) 0))
  else some .heap

/-- `ci_buffer_real_size` for a buffer with the `ID` `n` and its source. -/
def realSize (n : UInt64) : BufSource → Nat
  | .pool i => poolSize i
  | .heap => n.toNat

/-- A block: the memory at `base` with the head of a pool block or without, then the head of the
buffer and `capacity` bytes of data. -/
structure BufBlock where
  base : Nat
  pooled : Bool
  capacity : Nat
  source : BufSource
  id : UInt64
  data : List UInt8
deriving DecidableEq, Repr

namespace BufBlock

def head (b : BufBlock) : Nat := if b.pooled then ptrOffset + ptrOffset else ptrOffset

def ptr (b : BufBlock) : Nat := b.base + b.head

def stop (b : BufBlock) : Nat := b.ptr + b.capacity

end BufBlock

/-- The buffers in use and the free blocks of each pool. -/
structure Buffers where
  live : List BufBlock
  pools : List (List BufBlock)
  fault : Bool
deriving DecidableEq, Repr

namespace Buffers

/-- `ci_buffers_init`. -/
def init : Buffers := ⟨[], List.replicate bufEndPool [], false⟩

def blocks (s : Buffers) : List BufBlock := s.live ++ s.pools.flatten

/-- `malloc`: it refuses (`none`), or gives memory that no block has. -/
def malloc (s : Buffers) (m : Option Nat) (size : Nat) : Option Nat :=
  m.filter fun base => s.blocks.all fun b => decide (base + size ≤ b.base ∨ b.stop ≤ base)

def find (s : Buffers) (p : Nat) : Option BufBlock := s.live.find? fun b => b.ptr == p

/-- The allocation in `ci_buffer_alloc2` up to the heads of the block, with `pool_allocator_alloc`.
A pool does not check whether `malloc` has refused. -/
def takeBlock (s : Buffers) (n : UInt64) (id : UInt64) (m : Option Nat) :
    Option BufBlock × Buffers :=
  match bufferSource n with
  | none => (none, { s with fault := true })
  | some (.pool i) =>
    if poolSize i + ptrOffset < (n + UInt64.ofNat ptrOffset).toNat then (none, s)
    else
      match s.pools.getD i [] with
      | b :: rest => (some { b with source := .pool i, id := id },
          { s with pools := s.pools.set i rest })
      | [] =>
        match s.malloc m (ptrOffset + ptrOffset + poolSize i) with
        | some base => (some ⟨base, true, poolSize i, .pool i, id,
            List.replicate (poolSize i) 0⟩, s)
        | none => (none, { s with fault := true })
  | some .heap =>
    match s.malloc m (n + UInt64.ofNat ptrOffset).toNat with
    | some base => (some ⟨base, false, n.toNat, .heap, id, List.replicate n.toNat 0⟩, s)
    | none => (none, s)

/-- The `ID` of a new buffer: the size that was asked for, or all of the block for a caller that
asks for its size (`allocated`). -/
def newId (n : UInt64) (allocated : Bool) : UInt64 :=
  if allocated then UInt64.ofNat (((bufferSource n).map (realSize n)).getD 0) else n

/-- `ci_buffer_alloc2`; `ci_buffer_alloc` is the case without `allocated`. -/
def alloc (s : Buffers) (n : UInt64) (allocated : Bool) (m : Option Nat) : Option Nat × Buffers :=
  match s.takeBlock n (newId n allocated) m with
  | (some b, s) => (some b.ptr, { s with live := b :: s.live })
  | (none, s) => (none, s)

/-- `ci_buffer_free`. A block of the heap has no head of a pool block: putting it into a pool writes
in front of its memory, as `free` on a block of a pool would. -/
def free (s : Buffers) (p : Nat) : Buffers :=
  match s.find p with
  | none => s
  | some b =>
    match bufferSource b.id, b.pooled with
    | some (.pool i), true =>
      { s with live := s.live.eraseP (fun c => c.ptr == p), pools := s.pools.modify i (b :: ·) }
    | some .heap, false => { s with live := s.live.eraseP fun c => c.ptr == p }
    | _, _ => { s with fault := true }

/-- `ci_buffer_realloc2`; `ci_buffer_realloc` is the case without `allocated`. -/
def realloc (s : Buffers) (p : Option Nat) (n : UInt64) (allocated : Bool) (m : Option Nat) :
    Option Nat × Buffers :=
  match p with
  | none => s.alloc n allocated m
  | some p =>
    match s.find p with
    | none => (none, s)
    | some b =>
      match bufferSource b.id with
      | none => (none, { s with fault := true })
      | some src =>
        if realSize b.id src < n.toNat then
          match s.takeBlock n (newId n allocated) m with
          | (none, s) => (none, s)
          | (some c, s) =>
            -- the bytes of the old buffer are copied before it is freed
            let c := { c with
              data := b.data.take b.id.toNat ++ c.data.drop b.id.toNat }
            (some c.ptr, ({ s with live := c :: s.live } : Buffers).free p)
        else
          let id := if allocated then UInt64.ofNat (realSize b.id src) else n
          let rest := s.live.eraseP fun c => c.ptr == p
          (some p, { s with live := { b with id := id } :: rest })

end Buffers

/-! ## The tables -/

theorem mem_shortBuffers {k : Nat} (hk : k < 16) : shortBuffers.getD k 0 < bufEndPool := by
  decide +revert

theorem mem_longBuffers {k : Nat} (hk : k < 16) : longBuffers.getD k 0 < bufEndPool := by
  decide +revert

theorem bufferSource_pool {n : UInt64} {i : Nat} (h : bufferSource n = some (.pool i)) :
    i < bufEndPool := by
  unfold bufferSource at h
  dsimp only at h
  split at h
  · cases h
  split at h
  · rw [Option.some.injEq, BufSource.pool.injEq] at h
    rw [← h]
    exact mem_shortBuffers (by omega)
  split at h
  · rw [Option.some.injEq, BufSource.pool.injEq] at h
    rw [← h]
    exact mem_longBuffers (by omega)
  · cases h

/-- The size of the blocks of a pool is looked for in this pool. -/
theorem bufferSource_poolSize {i : Nat} (hi : i < bufEndPool) :
    bufferSource (UInt64.ofNat (poolSize i)) = some (.pool i) := by
  decide +kernel +revert

/-- A size that is found in the tables does not wrap around with the head. -/
theorem toNat_add_ptrOffset {n : UInt64} (h : bufferSource n ≠ none) :
    (n + UInt64.ofNat ptrOffset).toNat = n.toNat + ptrOffset := by
  have hlt := n.toNat_lt
  have hsmall : n.toNat + ptrOffset < 2 ^ 64 := by
    by_contra hbig
    unfold ptrOffset at hbig
    apply h
    have hdec : sizeDec n = n.toNat - 1 := by
      unfold sizeDec
      rw [if_neg]
      rintro rfl
      exact hbig (by decide)
    have htype : bufferType n = 4294967295 := by
      unfold bufferType
      omega
    unfold bufferSource
    rw [htype]
    rfl
  exact Nat.mod_eq_of_lt hsmall

end CIcap
