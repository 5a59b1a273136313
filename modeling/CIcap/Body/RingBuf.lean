import CIcap.Lib.CText
import CIcap.Lib.Fifo

/-! # The ring buffer

`struct ci_ring_buf` of `body.c`: a block of memory with a read and a write position and a
flag that tells a full buffer from an empty one. The positions are offsets into the block.
`content` is the queue of bytes the buffer stands for: a write appends to it what it accepts
(`write_content`), a read takes its front (`read_content`).
-/

namespace CIcap

open List

/-- `struct ci_ring_buf` -/
structure RingBuf where
  buf : List UInt8
  readPos : Nat := 0
  writePos : Nat := 0
  full : Bool := false
  deriving DecidableEq

namespace RingBuf

/-- `ci_ring_buf_new` -/
def new (size : Nat) : RingBuf := { buf := replicate size 0 }

/-- `ci_ring_buf_is_empty` -/
def isEmpty (b : RingBuf) : Bool := b.readPos = b.writePos && !b.full

/-- `ci_ring_buf_write_direct`: the room from the write position on, and whether there may be
more at the start of the block. -/
def writeDirect (b : RingBuf) : Nat × Bool :=
  if b.isEmpty then (b.buf.length - b.writePos, false)
  else if b.writePos ≤ b.readPos then (b.readPos - b.writePos, false)
  else (b.buf.length - b.writePos, true)

/-- `ci_ring_buf_read_direct`: the bytes from the read position on, and whether there may be
more at the start of the block. -/
def readDirect (b : RingBuf) : Nat × Bool :=
  if b.isEmpty then (0, false)
  else if b.writePos ≤ b.readPos then (b.buf.length - b.readPos, b.readPos ≠ 0)
  else (b.writePos - b.readPos, false)

/-- A position moved on, back to the start behind the end of the block. -/
def advance (b : RingBuf) (pos len : Nat) : Nat :=
  if pos + len < b.buf.length then pos + len else 0

/-- `memcpy` to the write position and `ci_ring_buf_produce`. -/
def produce (b : RingBuf) (data : List UInt8) : RingBuf :=
  if data = [] then b
  else
    { b with
      buf := b.buf.take b.writePos ++ data ++ b.buf.drop (b.writePos + data.length)
      writePos := b.advance b.writePos data.length
      full := b.full || b.advance b.writePos data.length = b.readPos }

/-- `ci_ring_buf_consume` -/
def consume (b : RingBuf) (len : Nat) : RingBuf :=
  if len = 0 then b else { b with readPos := b.advance b.readPos len, full := false }

/-- The loop of `ci_ring_buf_write`. Every round but the last one takes a byte of the data, so
their number is enough fuel. -/
def writeLoop : Nat → RingBuf → List UInt8 → RingBuf × Nat
  | 0, b, _ => (b, 0)
  | fuel + 1, b, data =>
    let n := min data.length b.writeDirect.1
    let b' := b.produce (data.take n)
    if b.writeDirect.2 ∧ n < data.length then
      let (b'', n') := writeLoop fuel b' (data.drop n)
      (b'', n + n')
    else (b', n)

/-- `ci_ring_buf_write`: the buffer and the number of bytes it accepted. -/
def write (b : RingBuf) (data : List UInt8) : RingBuf × Nat := writeLoop (data.length + 1) b data

/-- The loop of `ci_ring_buf_read`. -/
def readLoop : Nat → RingBuf → Nat → RingBuf × List UInt8
  | 0, b, _ => (b, [])
  | fuel + 1, b, size =>
    let n := min size b.readDirect.1
    let out := (b.buf.drop b.readPos).take n
    let b' := b.consume n
    if b.readDirect.2 ∧ n < size then
      let (b'', out') := readLoop fuel b' (size - n)
      (b'', out ++ out')
    else (b', out)

/-- `ci_ring_buf_read`: the buffer and the bytes read. -/
def read (b : RingBuf) (size : Nat) : RingBuf × List UInt8 := readLoop (size + 1) b size

/-! ## Bounds -/

variable (fuel : Nat)

theorem writeLoop_le (b : RingBuf) (data : List UInt8) :
    (writeLoop fuel b data).2 ≤ data.length := by
  induction fuel generalizing b data with
  | zero => exact Nat.zero_le _
  | succ fuel ih =>
    unfold writeLoop
    dsimp only
    split
    · have := ih (b.produce (data.take (min data.length b.writeDirect.1)))
        (data.drop (min data.length b.writeDirect.1))
      rw [length_drop] at this
      omega
    · exact Nat.min_le_left _ _

theorem readLoop_length_le (b : RingBuf) (size : Nat) : (readLoop fuel b size).2.length ≤ size := by
  induction fuel generalizing b size with
  | zero => exact Nat.zero_le _
  | succ fuel ih =>
    unfold readLoop
    dsimp only
    split
    · have := ih (b.consume (min size b.readDirect.1)) (size - min size b.readDirect.1)
      rw [length_append, length_take]
      omega
    · rw [length_take]
      omega

/-! ## The queue -/

/-- The positions are inside the block, and a full buffer has equal positions. -/
structure Inv (b : RingBuf) : Prop where
  read_lt : b.readPos < b.buf.length
  write_lt : b.writePos < b.buf.length
  full_eq : b.full = true → b.readPos = b.writePos

/-- The bytes in the buffer, the oldest first. -/
def content (b : RingBuf) : List UInt8 :=
  if b.isEmpty then []
  else if b.readPos < b.writePos then (b.buf.drop b.readPos).take (b.writePos - b.readPos)
  else b.buf.drop b.readPos ++ b.buf.take b.writePos

variable {size : Nat} {b : RingBuf} {data : List UInt8}

theorem new_inv (h : 0 < size) : Inv (new size) :=
  ⟨by simpa [new] using h, by simpa [new] using h, fun h => by cases h⟩

/-- A nonempty buffer whose write position is not behind the read position is wrapped. -/
theorem content_wrapped (hne : b.isEmpty = false) (h : b.writePos ≤ b.readPos) :
    b.content = b.buf.drop b.readPos ++ b.buf.take b.writePos := by
  rw [content, hne, if_neg (by simp), if_neg (by omega)]

theorem content_straight (h : b.readPos < b.writePos) :
    b.content = (b.buf.drop b.readPos).take (b.writePos - b.readPos) := by
  have hne : b.isEmpty = false := by simp [isEmpty]; omega
  rw [content, hne, if_neg (by simp), if_pos h]

theorem content_length_le : b.content.length ≤ b.buf.length := by
  unfold content
  split
  · simp
  · split
    · rw [length_take, length_drop]; omega
    · rw [length_append, length_drop, length_take]; omega

/-! ## Writing -/

/-- The block with `data` put at `pos`. -/
def put (buf : List UInt8) (pos : Nat) (data : List UInt8) : List UInt8 :=
  buf.take pos ++ data ++ buf.drop (pos + data.length)

section Put

variable {buf data : List UInt8} {pos : Nat}

/-- The part from a place before the data up to the end of the data. -/
theorem drop_take_put {r : Nat} (hr : r ≤ pos) (h : pos ≤ buf.length) :
    ((put buf pos data).drop r).take (pos + data.length - r) =
      (buf.drop r).take (pos - r) ++ data := by
  have hlen : ((buf.take pos).drop r).length = pos - r := by
    rw [length_drop, length_take]; omega
  rw [put, append_assoc, drop_append_of_le_length (by rw [length_take]; omega),
    ← append_assoc, take_append_of_le_length (by rw [length_append]; omega),
    take_of_length_le (by rw [length_append]; omega), drop_take]

theorem drop_put {r : Nat} (hr : pos + data.length ≤ r) (h : pos ≤ buf.length) :
    (put buf pos data).drop r = buf.drop r := by
  have hlen : (buf.take pos ++ data).length = pos + data.length := by
    rw [length_append, length_take]; omega
  rw [put, drop_append, drop_eq_nil_of_le (by omega), drop_drop, nil_append]
  congr 1
  omega

end Put

theorem writeDirect_le (hb : b.Inv) : b.writePos + b.writeDirect.1 ≤ b.buf.length := by
  have := hb.read_lt
  have := hb.write_lt
  unfold writeDirect
  split
  · show b.writePos + (b.buf.length - b.writePos) ≤ _; omega
  · split
    · show b.writePos + (b.readPos - b.writePos) ≤ _; omega
    · show b.writePos + (b.buf.length - b.writePos) ≤ _; omega

/-- What is written to the room behind the write position goes to the end of the queue. -/
theorem produce_content (hb : b.Inv) (hlen : data.length ≤ b.writeDirect.1) :
    (b.produce data).Inv ∧ (b.produce data).content = b.content ++ data ∧
      (b.produce data).buf.length = b.buf.length := by
  by_cases hd : data = []
  · rw [produce, if_pos hd, hd, append_nil]
    exact ⟨hb, rfl, rfl⟩
  have hpos : 0 < data.length := length_pos_iff.mpr hd
  have hroom : b.writePos + data.length ≤ b.buf.length := by
    have := writeDirect_le hb
    omega
  have hr := hb.read_lt
  have hw := hb.write_lt
  have heq : b.produce data = { b with
        buf := put b.buf b.writePos data
        writePos := b.advance b.writePos data.length
        full := b.full || decide (b.advance b.writePos data.length = b.readPos) } := by
    rw [produce, if_neg hd]
    rfl
  rw [heq]
  -- a buffer with room is not full
  have hnf : b.full = false := by
    cases hf : b.full with
    | false => rfl
    | true =>
      have hrw := hb.full_eq hf
      have : b.writeDirect.1 = 0 := by
        rw [writeDirect, isEmpty, hf, if_neg (by simp), if_pos (by omega)]
        omega
      omega
  have hlen' : (put b.buf b.writePos data).length = b.buf.length := by
    simp only [put, length_append, length_take, length_drop]
    omega
  have hadv : b.advance b.writePos data.length < b.buf.length := by
    unfold advance
    split <;> omega
  refine ⟨⟨?_, ?_, ?_⟩, ?_, hlen'⟩
  · simpa [hlen'] using hr
  · simpa [hlen'] using hadv
  · intro h
    simp only [hnf, Bool.false_or, decide_eq_true_eq] at h
    exact h.symm
  · rcases Nat.lt_or_ge b.writePos b.readPos with hwr | hrw
    · -- the free part lies between the write and the read position
      have hne : b.isEmpty = false := by simp [isEmpty]; omega
      have hfit : data.length ≤ b.readPos - b.writePos := by
        rw [writeDirect, hne, if_neg (by simp), if_pos (by omega)] at hlen
        exact hlen
      have hadv : b.advance b.writePos data.length = b.writePos + data.length := by
        rw [advance, if_pos (by omega)]
      rw [content_wrapped (by simp [isEmpty]; omega) (by simp only [hadv]; omega),
        content_wrapped hne (by omega)]
      have htake : (put b.buf b.writePos data).take (b.writePos + data.length) =
          b.buf.take b.writePos ++ data := by
        have := @drop_take_put _ data _ _ (Nat.zero_le b.writePos) hw.le
        simpa using this
      simp only [hadv]
      rw [drop_put (by omega) hw.le, htake, append_assoc]
    · -- the queue is a straight part of the block that ends at the write position
      have hold : b.content = (b.buf.drop b.readPos).take (b.writePos - b.readPos) := by
        rcases Nat.eq_or_lt_of_le hrw with heq | hlt
        · have hempty : b.isEmpty = true := by simp [isEmpty, heq, hnf]
          rw [content, hempty, if_pos rfl, heq, Nat.sub_self, take_zero]
        · exact content_straight hlt
      rw [hold, ← drop_take_put hrw hw.le]
      by_cases hend : b.writePos + data.length < b.buf.length
      · have hadv : b.advance b.writePos data.length = b.writePos + data.length := by
          rw [advance, if_pos hend]
        rw [content_straight (by simp only [hadv]; omega)]
        simp only [hadv]
      · have hadv : b.advance b.writePos data.length = 0 := by rw [advance, if_neg hend]
        have hall : b.writePos + data.length - b.readPos =
            ((put b.buf b.writePos data).drop b.readPos).length := by
          rw [length_drop]; omega
        rw [content_wrapped (by simp [isEmpty]; omega) (by simp only [hadv]; omega), hall,
          take_length]
        simp only [hadv, take_zero, append_nil]

/-- **Writing.** The queue grows by the bytes that are accepted, at most the free space; of
data there is place for, at least one byte is accepted. -/
theorem writeLoop_content (hb : b.Inv) (data : List UInt8) :
    (writeLoop fuel b data).1.Inv ∧
      (writeLoop fuel b data).1.content = b.content ++ data.take (writeLoop fuel b data).2 ∧
      (writeLoop fuel b data).1.buf.length = b.buf.length ∧
      (writeLoop fuel b data).2 ≤ data.length := by
  induction fuel generalizing b data with
  | zero => simp [writeLoop, hb]
  | succ fuel ih =>
    have hn : min data.length b.writeDirect.1 ≤ data.length := Nat.min_le_left _ _
    have htake : (data.take (min data.length b.writeDirect.1)).length ≤ b.writeDirect.1 := by
      rw [length_take]; omega
    obtain ⟨hinv, hcont, hsize⟩ := produce_content hb htake
    rw [writeLoop]
    split
    · obtain ⟨hinv', hcont', hsize', hle⟩ := ih hinv (data.drop (min data.length b.writeDirect.1))
      rw [length_drop] at hle
      refine ⟨hinv', ?_, hsize'.trans hsize, ?_⟩
      · rw [hcont', hcont, append_assoc, take_add]
      · show _ + _ ≤ _
        omega
    · exact ⟨hinv, hcont, hsize, hn⟩

theorem write_content (hb : b.Inv) (data : List UInt8) :
    (b.write data).1.Inv ∧ (b.write data).1.content = b.content ++ data.take (b.write data).2 ∧
      (b.write data).1.buf.length = b.buf.length ∧ (b.write data).2 ≤ data.length :=
  writeLoop_content _ hb data

/-! ## Reading -/

theorem readDirect_le (hb : b.Inv) : b.readPos + b.readDirect.1 ≤ b.buf.length := by
  have := hb.read_lt
  have := hb.write_lt
  unfold readDirect
  split
  · show b.readPos + 0 ≤ _; omega
  · split
    · show b.readPos + (b.buf.length - b.readPos) ≤ _; omega
    · show b.readPos + (b.writePos - b.readPos) ≤ _; omega

/-- What is read from behind the read position is the front of the queue. -/
theorem consume_content (hb : b.Inv) {n : Nat} (hn : n ≤ b.readDirect.1) :
    (b.consume n).Inv ∧ b.content = (b.buf.drop b.readPos).take n ++ (b.consume n).content ∧
      (b.consume n).buf = b.buf := by
  by_cases hn0 : n = 0
  · rw [hn0]
    exact ⟨hb, rfl, rfl⟩
  have hw := hb.write_lt
  have heq : b.consume n = { b with readPos := b.advance b.readPos n, full := false } := by
    rw [consume, if_neg hn0]
  have hne : b.isEmpty = false := by
    cases he : b.isEmpty with
    | false => rfl
    | true =>
      rw [readDirect, he] at hn
      exact absurd (Nat.le_zero.mp hn) hn0
  have hadv : b.advance b.readPos n < b.buf.length := by
    unfold advance
    split <;> omega
  have hsplit : b.buf.drop b.readPos =
      (b.buf.drop b.readPos).take n ++ b.buf.drop (b.readPos + n) := by
    rw [← drop_drop, take_append_drop]
  rw [heq]
  refine ⟨⟨hadv, hw, fun h => by cases h⟩, ?_, rfl⟩
  rcases Nat.lt_or_ge b.readPos b.writePos with hrw | hwr
  · -- the queue is a straight part of the block
    have hfit : n ≤ b.writePos - b.readPos := by
      rw [readDirect, hne, if_neg (by simp), if_neg (by omega)] at hn
      exact hn
    have hpos : b.advance b.readPos n = b.readPos + n := by rw [advance, if_pos (by omega)]
    have hnew : content { b with readPos := b.advance b.readPos n, full := false } =
        (b.buf.drop (b.readPos + n)).take (b.writePos - (b.readPos + n)) := by
      rcases Nat.eq_or_lt_of_le (show b.readPos + n ≤ b.writePos by omega) with hend | hlt
      · rw [content, hpos, hend, Nat.sub_self, take_zero, if_pos (by simp [isEmpty])]
      · rw [content_straight (by simp only [hpos]; exact hlt)]
        simp only [hpos]
    have hlen : b.writePos - b.readPos = n + (b.writePos - (b.readPos + n)) := by omega
    rw [hnew, content_straight hrw, hlen, take_add, drop_drop]
  · rw [content_wrapped hne hwr]
    by_cases hend : b.readPos + n < b.buf.length
    · have hpos : b.advance b.readPos n = b.readPos + n := by rw [advance, if_pos hend]
      rw [content_wrapped (by simp [isEmpty]; omega) (by simp only [hpos]; omega)]
      simp only [hpos]
      rw [← append_assoc, ← hsplit]
    -- the read position comes back to the start of the block
    have hpos : b.advance b.readPos n = 0 := by rw [advance, if_neg hend]
    have hall : (b.buf.drop b.readPos).take n = b.buf.drop b.readPos :=
      take_of_length_le (by rw [length_drop]; omega)
    have hnew : content { b with readPos := b.advance b.readPos n, full := false } =
        b.buf.take b.writePos := by
      rcases Nat.eq_zero_or_pos b.writePos with hz | hp
      · rw [content, hpos, hz, take_zero, if_pos (by simp [isEmpty])]
      · rw [content_straight (by simp only [hpos]; exact hp)]
        simp only [hpos, drop_zero, Nat.sub_zero]
    rw [hall, hnew]

/-- Where no more can follow, the bytes behind the read position are the whole queue. -/
theorem content_length_of_not_more (hb : b.Inv) (h : b.readDirect.2 = false) :
    b.content.length = b.readDirect.1 := by
  have := hb.write_lt
  cases he : b.isEmpty with
  | true => rw [content, readDirect, he]; rfl
  | false =>
    rcases Nat.lt_or_ge b.readPos b.writePos with hrw | hwr
    · rw [content_straight hrw, readDirect, he, if_neg (by simp), if_neg (by omega),
        length_take, length_drop]
      omega
    · have hdir : b.readDirect = (b.buf.length - b.readPos, decide (b.readPos ≠ 0)) := by
        rw [readDirect, he, if_neg (by simp), if_pos hwr]
      rw [hdir] at h ⊢
      have hz : b.readPos = 0 := by simpa using h
      rw [content_wrapped he hwr, length_append, length_drop, length_take]
      omega

/-- **Reading.** A read returns the front of the queue, as much as was asked for and is there. -/
theorem readLoop_content (hb : b.Inv) (hf : size < fuel) :
    (readLoop fuel b size).1.Inv ∧
      b.content = (readLoop fuel b size).2 ++ (readLoop fuel b size).1.content ∧
      (readLoop fuel b size).1.buf.length = b.buf.length ∧
      (readLoop fuel b size).2.length = min size b.content.length := by
  induction fuel generalizing b size with
  | zero => omega
  | succ fuel ih =>
    have hle := readDirect_le hb
    obtain ⟨hinv, hcont, hbuf⟩ := consume_content hb (Nat.min_le_right size b.readDirect.1)
    have hout : ((b.buf.drop b.readPos).take (min size b.readDirect.1)).length =
        min size b.readDirect.1 := by
      rw [length_take, length_drop]; omega
    have hlen := congrArg length hcont
    rw [length_append] at hlen
    rw [readLoop]
    by_cases hmore : b.readDirect.2 = true ∧ min size b.readDirect.1 < size
    · rw [if_pos hmore]
      have hpos : 0 < b.readDirect.1 := by
        have := hb.read_lt
        by_contra hz
        unfold readDirect at hmore hz
        split at hmore
        · exact absurd hmore.1 (by simp)
        · rename_i he
          rw [if_neg he] at hz
          split at hmore
          · rename_i hwr
            rw [if_pos hwr] at hz
            omega
          · exact absurd hmore.1 (by simp)
      obtain ⟨hinv', hcont', hbuf', hlen'⟩ := @ih (size - min size b.readDirect.1) _ hinv (by omega)
      refine ⟨hinv', ?_, ?_, ?_⟩
      · rw [append_assoc, ← hcont']
        exact hcont
      · rw [← hbuf]
        exact hbuf'
      · rw [length_append]
        omega
    · rw [if_neg hmore]
      refine ⟨hinv, hcont, by rw [hbuf], ?_⟩
      rw [hout]
      by_cases hsize : min size b.readDirect.1 < size
      · have hnm : b.readDirect.2 = false := by
          cases hm : b.readDirect.2 with
          | false => rfl
          | true => exact absurd ⟨hm, hsize⟩ hmore
        rw [content_length_of_not_more hb hnm]
      · omega

theorem read_content (hb : b.Inv) (size : Nat) :
    (b.read size).1.Inv ∧ b.content = (b.read size).2 ++ (b.read size).1.content ∧
      (b.read size).1.buf.length = b.buf.length ∧
      (b.read size).2.length = min size b.content.length :=
  readLoop_content _ hb (Nat.lt_succ_self size)

/-! ## The buffer as a queue -/

/-- A buffer that is not full has room behind the write position. -/
theorem writeDirect_pos (hb : b.Inv) (hroom : b.content.length < b.buf.length) :
    0 < b.writeDirect.1 := by
  have hw := hb.write_lt
  cases he : b.isEmpty with
  | true =>
    rw [writeDirect, he, if_pos rfl]
    omega
  | false =>
    rcases Nat.lt_or_ge b.readPos b.writePos with hrw | hwr
    · rw [writeDirect, he, if_neg (by simp), if_neg (by omega)]
      omega
    · rw [writeDirect, he, if_neg (by simp), if_pos hwr]
      rw [content_wrapped he hwr, length_append, length_drop, length_take] at hroom
      omega

/-- Of data there is place for, at least one byte is accepted. -/
theorem write_pos (hb : b.Inv) (hd : data ≠ [])
    (hroom : b.content.length < b.buf.length) : 0 < (b.write data).2 := by
  have hpos : 0 < data.length := length_pos_iff.mpr hd
  have hdir := writeDirect_pos hb hroom
  rw [write, writeLoop]
  dsimp only
  split
  all_goals omega

/-- An operation on the buffer. -/
inductive Op where
  | write (data : List UInt8)
  | read (size : Nat)

def op (b : RingBuf) : Op → RingBuf × Fifo.Event UInt8
  | .write data => ((b.write data).1, .wrote data (b.write data).2)
  | .read size => ((b.read size).1, .got size (b.read size).2)

/-- The parts of the block that the loop of `ci_ring_buf_write` writes to, as offset and length. -/
def writeRanges : Nat → RingBuf → List UInt8 → List (Nat × Nat)
  | 0, _, _ => []
  | fuel + 1, b, data =>
    let n := min data.length b.writeDirect.1
    (b.writePos, n) :: (if b.writeDirect.2 ∧ n < data.length then
      writeRanges fuel (b.produce (data.take n)) (data.drop n) else [])

/-- The parts of the block that the loop of `ci_ring_buf_read` reads from. -/
def readRanges : Nat → RingBuf → Nat → List (Nat × Nat)
  | 0, _, _ => []
  | fuel + 1, b, size =>
    let n := min size b.readDirect.1
    (b.readPos, n) :: (if b.readDirect.2 ∧ n < size then
      readRanges fuel (b.consume n) (size - n) else [])

/-- The parts of the block an operation accesses. -/
def ranges (b : RingBuf) : Op → List (Nat × Nat)
  | .write data => writeRanges (data.length + 1) b data
  | .read size => readRanges (size + 1) b size

theorem writeRanges_le (hb : b.Inv) (data : List UInt8) :
    ∀ r ∈ writeRanges fuel b data, r.1 + r.2 ≤ b.buf.length := by
  induction fuel generalizing b data with
  | zero => simp [writeRanges]
  | succ fuel ih =>
    have htake : (data.take (min data.length b.writeDirect.1)).length ≤ b.writeDirect.1 := by
      rw [length_take]; omega
    obtain ⟨hinv, -, hsize⟩ := produce_content hb htake
    have hdir := writeDirect_le hb
    intro r hr
    rcases mem_cons.mp hr with rfl | hr
    · omega
    · split at hr
      · rw [← hsize]
        exact ih hinv _ r hr
      · cases hr

theorem readRanges_le (hb : b.Inv) (size : Nat) :
    ∀ r ∈ readRanges fuel b size, r.1 + r.2 ≤ b.buf.length := by
  induction fuel generalizing b size with
  | zero => simp [readRanges]
  | succ fuel ih =>
    obtain ⟨hinv, -, hbuf⟩ := consume_content hb (Nat.min_le_right size b.readDirect.1)
    have hdir := readDirect_le hb
    intro r hr
    rcases mem_cons.mp hr with rfl | hr
    · omega
    · split at hr
      · rw [← hbuf]
        exact ih hinv _ r hr
      · cases hr

/-- One operation on a buffer that meets the invariant. -/
theorem op_bounded (hb : b.Inv) (o : Op) : (b.op o).1.Inv ∧ (b.op o).1.buf.length = b.buf.length ∧
      Fifo.Bounded b.buf.length b.content (b.op o).2 (b.op o).1.content ∧
      ∀ r ∈ b.ranges o, r.1 + r.2 ≤ b.buf.length := by
  cases o with
  | write data =>
    obtain ⟨hinv, hcont, hsize, hle⟩ := write_content hb data
    refine ⟨hinv, hsize, ?_, writeRanges_le _ hb data⟩
    have hfit : b.content.length + (b.write data).2 ≤ b.buf.length := by
      have hmax := @content_length_le (b.write data).1
      rw [hcont, length_append, length_take] at hmax
      omega
    show Fifo.Bounded _ _ _ (b.write data).1.content
    rw [hcont]
    exact .write hle hfit (write_pos hb)
  | read size =>
    obtain ⟨hinv, hcont, hsize, hlen⟩ := read_content hb size
    refine ⟨hinv, hsize, ?_, readRanges_le _ hb size⟩
    have htake : b.content.take size = (b.read size).2 := by
      rcases Nat.le_total size b.content.length with hle | hle
      · rw [hcont]
        exact take_left' (by rw [hlen]; omega)
      · rw [take_of_length_le hle]
        have hnil : (b.read size).1.content = [] := by
          have hl := congrArg length hcont
          rw [length_append] at hl
          exact length_eq_zero_iff.mp (by omega)
        rw [hcont, hnil, append_nil]
    have hdrop : b.content.drop size = (b.read size).1.content := by
      have hsplit := take_append_drop size b.content
      rw [htake] at hsplit
      exact append_cancel_left (hsplit.trans hcont)
    show Fifo.Bounded _ _ (.got size (b.read size).2) (b.read size).1.content
    rw [← htake, ← hdrop]
    exact .read

theorem final_inv (h : 0 < size) (ops : List Op) :
    (Fifo.final op (new size) ops).Inv ∧ (Fifo.final op (new size) ops).buf.length = size := by
  have hstep : ∀ (b : RingBuf) (o : Op), b.Inv ∧ b.buf.length = size →
      (b.op o).1.Inv ∧ (b.op o).1.buf.length = size := by
    rintro b o ⟨hb, hsize⟩
    obtain ⟨hinv, hlen, -, -⟩ := op_bounded hb o
    exact ⟨hinv, hlen.trans hsize⟩
  exact Machine.run_inv_all hstep ⟨new_inv h, by simp [new]⟩ ops

/-- **The ring buffer is a bounded queue.** After any operations on a new buffer it holds at most
as many bytes as it has room for; the next operation does what it does on a queue with that
content and capacity, inside the block; and what the run has returned, followed by what is left,
is what it has accepted. -/
theorem ring_buf_bounded_queue {size : Nat} (h : 0 < size) (ops : List Op) (o : Op) :
    let b := Fifo.final op (new size) ops
    b.content.length ≤ size ∧ Fifo.Bounded size b.content (b.op o).2 (b.op o).1.content ∧
      (∀ r ∈ b.ranges o, r.1 + r.2 ≤ size) ∧
      (Fifo.trace op (new size) ops).flatMap Fifo.Event.accepted =
        (Fifo.trace op (new size) ops).flatMap Fifo.Event.returned ++ b.content := by
  obtain ⟨hinv, hsize⟩ := final_inv h ops
  obtain ⟨-, -, hop, hranges⟩ := op_bounded hinv o
  have hmax := @content_length_le (Fifo.final op (new size) ops)
  rw [hsize] at hmax hop hranges
  refine ⟨hmax, hop, hranges, ?_⟩
  have hstep : ∀ (b : RingBuf) (o : Op), b.Inv → True →
      (b.op o).1.Inv ∧ Fifo.Moves b.content (b.op o).2 (b.op o).1.content := by
    intro b o hb _
    obtain ⟨hinv, -, hop, -⟩ := op_bounded hb o
    exact ⟨hinv, hop.moves⟩
  have hall : Machine.AllSteps (fun b o => (op b o).1) (fun _ _ => True) (new size) ops :=
    Machine.allSteps_true _ _ _
  have hrun := (Fifo.conserve hstep (new_inv h) hall).2
  exact hrun

/-- A buffer of two bytes that is written and read over its end. -/
theorem ring_buf_bounded_queue_two :
    let b := Fifo.final op (new 2) [.write [1, 2, 3], .read 1, .write [4, 5]]
    (b.op (.read 5)).2.returned = [2, 4] ∧ b.content.length ≤ 2 ∧
      Fifo.Bounded 2 b.content (b.op (.read 5)).2 (b.op (.read 5)).1.content := by
  have h := ring_buf_bounded_queue (show 0 < 2 by decide)
    [.write [1, 2, 3], .read 1, .write [4, 5]] (.read 5)
  exact ⟨by decide, h.1, h.2.1⟩

end RingBuf

end CIcap
