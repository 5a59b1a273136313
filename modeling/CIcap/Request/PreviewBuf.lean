import CIcap.Mem.BuffersRun
import CIcap.Request.Parse

/-! # The memory of the preview buffer

The preview of a request is kept in a `struct ci_buf`: a pointer that `ci_buffer_alloc2` gave, the size
it reported, and the bytes that are used of it. The size is asked for by the `Preview` header of the
client. The bytes themselves are not kept here; a write that leaves the memory is a fault.
-/

namespace CIcap

open CText Buffers

/-- `struct ci_buf`, with the buffers of the process -/
structure PreviewBuf where
  mem : Buffers
  buf : Option Nat
  size : Nat
  used : Nat

inductive PreviewCall
  | alloc (n : UInt64) (m : Option Nat)
  | write (data : List UInt8)
  | reset
  | resize (n : UInt64) (m : Option Nat)
  | free
  /-- A `Preview` header is read. -/
  | header (value : List UInt8) (m : Option Nat)

namespace PreviewBuf

/-- `ci_buf_init` -/
def init : PreviewBuf := ⟨.init, none, 0, 0⟩

/-- `ci_buf_mem_alloc` -/
def memAlloc (s : PreviewBuf) (n : UInt64) (m : Option Nat) : PreviewBuf :=
  let r := s.mem.alloc n true m
  if r.1 = none then { s with mem := r.2, buf := none } else ⟨r.2, r.1, (newId n true).toNat, 0⟩

/-- `ci_buffer_free` on the pointer -/
def release (s : PreviewBuf) : PreviewBuf := { s with mem := s.buf.elim s.mem s.mem.free }

/-- `ci_buf_reset_and_resize` -/
def resetAndResize (s : PreviewBuf) (n : UInt64) (m : Option Nat) : PreviewBuf :=
  if n.toNat ≤ s.size then { s with used := 0 } else s.release.memAlloc n m

/-- The bytes of the memory at the pointer. -/
def room (s : PreviewBuf) : Nat := ((s.buf.bind s.mem.find).map BufBlock.capacity).getD 0

/-- `ci_buf_write` -/
def write (s : PreviewBuf) (data : List UInt8) : PreviewBuf :=
  if (s.size + 2 ^ 64 - s.used) % 2 ^ 64 < data.length then s
  else if s.room < s.used + data.length then { s with mem := { s.mem with fault := true } }
  else { s with used := s.used + data.length }

/-- The size that `parse_header` asks for: `result + 64` is an `int`. -/
def headerSize (result : Int) : UInt64 := UInt64.ofInt (toInt32 (result + 64))

def step (s : PreviewBuf) : PreviewCall → PreviewBuf
  | .alloc n m => s.memAlloc n m
  | .write data => s.write data
  | .reset => { s with used := 0 }
  | .resize n m => s.resetAndResize n m
  | .free => ⟨s.release.mem, none, 0, 0⟩
  | .header value m =>
    match previewNumber (value.dropWhile isSpace) with
    | none => s
    | some result => if 0 ≤ result then s.resetAndResize (headerSize result) m else s

/-- No access has left its memory, and the sizes are those of the memory. -/
structure Good (s : PreviewBuf) : Prop where
  alive : s.mem.fault = false
  used : s.used ≤ s.size
  size : s.size ≤ s.room

/-- The condition on an allocation: its size is found in the tables, a pool is given the memory it
asks for, and memory is refused only to a buffer that holds none. -/
def Served (s : PreviewBuf) (n : UInt64) (m : Option Nat) : Prop :=
  s.mem.Allocates n m ∧ ((s.mem.alloc n true m).1 = none → s.size = 0)

/-- The condition on a call: what it allocates is served. -/
def Keeps (s : PreviewBuf) : PreviewCall → Prop
  | .alloc n m => s.Served n m
  | .resize n m => s.size < n.toNat → s.release.Served n m
  | .header value m => ∀ result, previewNumber (value.dropWhile isSpace) = some result → 0 ≤ result →
      s.size < (headerSize result).toNat → s.release.Served (headerSize result) m
  | .write _ | .reset | .free => True

/-- The pointer, where there is one, is that of a buffer in use with the recorded size. -/
structure Held (s : PreviewBuf) : Prop where
  sound : Sound s.mem
  used : s.used ≤ s.size
  block : ∀ p, s.buf = some p → ∃ b, s.mem.find p = some b ∧ b.id.toNat = s.size
  none : s.buf = none → s.size = 0

variable {s : PreviewBuf} {n : UInt64} {m : Option Nat}

theorem Held.good (h : s.Held) : s.Good where
  alive := h.sound.alive
  used := h.used
  size := by
    unfold room
    cases hp : s.buf with
    | none => rw [h.none hp]; exact Nat.zero_le _
    | some p =>
      obtain ⟨b, hb, hid⟩ := h.block p hp
      rw [Option.bind_some, hb, Option.map_some, Option.getD_some, ← hid]
      exact h.sound.fits b (find_perm hb).1

theorem Held.release (h : s.Held) : Sound s.release.mem := by
  unfold PreviewBuf.release
  cases s.buf with
  | none => exact h.sound
  | some p =>
    have hfree := h.sound.step (e := .free p) trivial
    rwa [Buffers.step, if_neg (by simp [h.sound.alive])] at hfree

/-- An allocation that is served gives memory of the size it reports. -/
theorem memAlloc_held (h : Sound s.mem) (hused : s.used ≤ s.size) (hs : s.Served n m) :
    (s.memAlloc n m).Held := by
  have hsound := alloc_sound h true hs.1
  unfold memAlloc
  dsimp only
  split
  · next hnone => exact ⟨hsound, hused, nofun, fun _ => hs.2 hnone⟩
  next hsome =>
  refine ⟨hsound, Nat.zero_le _, fun p hp => ?_, fun hp => absurd hp hsome⟩
  unfold Buffers.alloc at hp ⊢
  rcases takeBlock_spec h.toInv n (newId n true) m hs.1 with hno | ⟨c, s', hc, ht⟩
  · rw [hno] at hp
    cases hp
  · rw [hc] at hp ⊢
    obtain rfl := Option.some.inj hp
    exact ⟨c, by simp [find], congrArg UInt64.toNat ht.id⟩

theorem Held.resetAndResize (h : s.Held) (hs : s.size < n.toNat → s.release.Served n m) :
    (s.resetAndResize n m).Held := by
  unfold PreviewBuf.resetAndResize
  split
  · exact ⟨h.sound, Nat.zero_le _, h.block, h.none⟩
  · exact memAlloc_held h.release h.used (hs (by omega))

theorem Held.write (h : s.Held) (data : List UInt8) : (s.write data).Held := by
  have hused := h.used
  have hsize := h.good.size
  unfold PreviewBuf.write
  split
  · exact h
  · -- what is left of the size is left of the memory
    have hfits : s.used + data.length ≤ s.size := by omega
    rw [if_neg (by omega)]
    exact ⟨h.sound, hfits, h.block, h.none⟩

theorem Held.step (h : s.Held) {c : PreviewCall} (hk : s.Keeps c) : (s.step c).Held := by
  cases c with
  | alloc n m => exact memAlloc_held h.sound h.used hk
  | write data => exact h.write data
  | reset => exact ⟨h.sound, Nat.zero_le _, h.block, h.none⟩
  | resize n m => exact h.resetAndResize hk
  | free => exact ⟨h.release, le_rfl, nofun, fun _ => rfl⟩
  | header value m =>
    unfold PreviewBuf.step
    dsimp only
    split
    · exact h
    · next result hnum =>
      split
      · next hpos => exact h.resetAndResize (hk result hnum hpos)
      · exact h

/-- **The preview buffer.** In every sequence of calls whose allocations are served, the sizes stay
those of the memory that is allocated. -/
theorem preview_buffer_good (calls : List PreviewCall)
    (hserved : Machine.AllSteps step Keeps init calls) (k : Nat) :
    (Machine.run step init (calls.take k)).Good :=
  Held.good (Machine.run_inv (fun _ _ h hk => Held.step h hk) ⟨sound_init, le_rfl, nofun, fun _ => rfl⟩
    (hserved.take k))

theorem preview_buffer_good_two :
    (Machine.run step init [.alloc 100 (some 0), .write [65]]).Good :=
  preview_buffer_good [.alloc 100 (some 0), .write [65]]
    ⟨⟨fun _ => .inr (by decide +kernel), by decide +kernel⟩, trivial, trivial⟩ 2

/-- A buffer whose growth is refused keeps the size of the memory it has lost, and the next write goes
to a null pointer. A preview of 2147483600 bytes asks for a negative size. -/
theorem preview_buffer_lost :
    (Machine.run step init [.header (bytes "100") (some 0), .header (bytes "40000") none]).buf = none ∧
    (Machine.run step init [.header (bytes "100") (some 0), .header (bytes "40000") none]).size = 256 ∧
    (Machine.run step init [.header (bytes "100") (some 0), .header (bytes "40000") none,
      .write [65]]).mem.fault = true ∧
    (Machine.run step init [.header (bytes "2147483600") (some 0)]).mem.fault = true := by
  decide +kernel

end PreviewBuf

end CIcap
