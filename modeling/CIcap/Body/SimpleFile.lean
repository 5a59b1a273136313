import CIcap.Body.RingBuf

/-! # The simple file

`ci_simple_file_t` of `body.c`: a temporary file with an end and a read position. A file with a
`max_store_size` is used as a ring: when the end position has reached that size it starts again
at the front, as far as the bytes there have been read. The positions stay one byte apart in
that mode, since equal positions mean an empty file. How many bytes the system writes or reads
of those it is asked for is an input of the operation, `none` for an error.
-/

namespace CIcap

open List

/-- `ci_simple_file_t` and the contents of its file. -/
structure SimpleFile where
  store : List UInt8 := []
  endpos : Nat := 0
  readpos : Nat := 0
  /-- `max_store_size`, 0 where there is no limit -/
  maxStoreSize : Nat
  bytesIn : Nat := 0
  bytesOut : Nat := 0
  /-- `CI_FILE_HAS_EOF` -/
  hasEof : Bool := false
  /-- `CI_FILE_RING_MODE` -/
  ringMode : Bool := false
  /-- `CI_FILE_USELOCK` -/
  useLock : Bool := false
  unlocked : Int := 0

namespace SimpleFile

/-- `ci_simple_file_new` -/
def new (maxsize : Int) : SimpleFile := { maxStoreSize := maxsize.toNat }

/-- `pwrite` at a position; what lies between the end of the file and the position is zero. -/
def pwrite (store : List UInt8) (pos : Nat) (data : List UInt8) : List UInt8 :=
  RingBuf.put (store ++ replicate (pos - store.length) 0) pos data

/-- Where `ci_simple_file_write` writes and how many bytes at most; `none` when it returns at
once because there is no room. -/
def writeRoom (b : SimpleFile) (len : Nat) : Option (SimpleFile × Nat) :=
  if b.endpos < b.readpos then some (b, min (b.readpos - b.endpos - 1) len)
  else if b.maxStoreSize ≠ 0 ∧ b.endpos = b.maxStoreSize then
    if b.readpos ≠ 0 ∧ b.useLock = false then
      some ({ b with endpos := 0, ringMode := true }, min (b.readpos - 1) len)
    else none
  else some (b, if b.maxStoreSize ≠ 0 then min (b.maxStoreSize - b.endpos) len else len)

/-- `ci_simple_file_write`: the file and the result, `none` for an error. -/
def write (b : SimpleFile) (data : List UInt8) (iseof : Bool) (io : Option Nat) :
    SimpleFile × Option Nat :=
  if b.hasEof then (b, some 0)
  else if data = [] then ({ b with hasEof := iseof }, some 0)
  else
    match b.writeRoom data.length with
    | none => (b, some 0)
    | some (b, wsize) =>
      match io with
      | none => (b, none)
      | some k =>
        let n := min k wsize
        ({ b with
            store := pwrite b.store b.endpos (data.take n)
            endpos := b.endpos + n
            bytesIn := b.bytesIn + n
            hasEof := iseof && decide (n = data.length) }, some n)

/-- The results of `ci_simple_file_read`: bytes, `CI_EOF`, or another negative number. -/
inductive ReadRet where
  | data (out : List UInt8)
  | eof
  | error
  deriving DecidableEq

def ReadRet.bytes : ReadRet → List UInt8
  | data out => out
  | _ => []

/-- At the end of the store the reading goes on at its front. -/
def wrapRead (b : SimpleFile) : SimpleFile :=
  if b.maxStoreSize ≠ 0 ∧ b.readpos = b.maxStoreSize then { b with readpos := 0 } else b

/-- The number of bytes behind the read position; `none` for the error that is answered with
`CI_EOF`. -/
def available (b : SimpleFile) : Option Nat :=
  if b.useLock ∧ 0 ≤ b.unlocked then some (b.unlocked - b.readpos).toNat
  else if b.readpos < b.endpos then some (b.endpos - b.readpos)
  else if b.maxStoreSize ≠ 0 then some (b.maxStoreSize - b.readpos)
  else none

/-- `ci_simple_file_read` -/
def read (b : SimpleFile) (len : Nat) (io : Option Nat) : SimpleFile × ReadRet :=
  if len = 0 then (b, .data [])
  else if b.readpos = b.endpos then (b, if b.hasEof then .eof else .data [])
  else
    let b := b.wrapRead
    match b.available with
    | none => (b, .eof)
    | some available =>
      match io with
      | none => (b, .error)
      | some k =>
        let out := (b.store.drop b.readpos).take (min k (min available len))
        ({ b with
            readpos := b.readpos + out.length
            bytesOut := b.bytesOut + out.length }, .data out)

/-! ## The assertions of the code -/

/-- The assertions of `ci_simple_file_write`, as far as they are reached. -/
def WriteAsserts (b : SimpleFile) (data : List UInt8) : Prop :=
  b.hasEof = false → data ≠ [] →
    (b.maxStoreSize ≠ 0 → b.endpos ≤ b.maxStoreSize ∧ b.readpos ≤ b.maxStoreSize) ∧
    (b.endpos < b.readpos → b.ringMode = true)

/-- The assertions of `ci_simple_file_read`, as far as they are reached. -/
def ReadAsserts (b : SimpleFile) (len : Nat) : Prop :=
  len ≠ 0 → b.readpos ≠ b.endpos →
    (b.maxStoreSize ≠ 0 → b.readpos = b.maxStoreSize → b.endpos < b.readpos ∧ b.ringMode = true) ∧
    (b.useLock = true ∧ 0 ≤ b.unlocked → b.ringMode = false ∧ b.wrapRead.readpos ≤ b.unlocked) ∧
    (¬ (b.useLock = true ∧ 0 ≤ b.unlocked) → b.endpos ≤ b.wrapRead.readpos →
      (b.endpos < b.wrapRead.readpos ∨ b.wrapRead.readpos = 0) ∧ b.ringMode = true)

/-! ## The queue -/

/-- A file with a limit and without locks: the positions are inside the store, and where the end
position is in front of the read position the store is complete. -/
structure Inv (b : SimpleFile) : Prop where
  pos : 0 < b.maxStoreSize
  noLock : b.useLock = false
  end_le : b.endpos ≤ b.maxStoreSize
  read_le : b.readpos ≤ b.maxStoreSize
  store_le : b.store.length ≤ b.maxStoreSize
  filled : b.endpos ≤ b.store.length
  wrapped : b.endpos < b.readpos → b.ringMode = true
  ring : b.ringMode = true → b.store.length = b.maxStoreSize

/-- The bytes in the file that have not been read, the oldest first. -/
def content (b : SimpleFile) : List UInt8 :=
  if b.readpos ≤ b.endpos then (b.store.drop b.readpos).take (b.endpos - b.readpos)
  else b.store.drop b.readpos ++ b.store.take b.endpos

theorem new_inv {maxsize : Int} (h : 0 < maxsize) : (new maxsize).Inv := by
  have hpos : 0 < maxsize.toNat := by omega
  constructor <;> simp [new, hpos]

variable {b : SimpleFile}

theorem content_straight (h : b.readpos ≤ b.endpos) :
    b.content = (b.store.drop b.readpos).take (b.endpos - b.readpos) := if_pos h

theorem content_wrapped (h : b.endpos < b.readpos) :
    b.content = b.store.drop b.readpos ++ b.store.take b.endpos := if_neg (by omega)

theorem pwrite_eq {store : List UInt8} {pos : Nat} (h : pos ≤ store.length) (data : List UInt8) :
    pwrite store pos data = RingBuf.put store pos data := by
  rw [pwrite, Nat.sub_eq_zero_of_le h, replicate_zero, append_nil]

theorem length_put_le {store : List UInt8} {pos : Nat} (h : pos ≤ store.length)
    (data : List UInt8) :
    (RingBuf.put store pos data).length = max store.length (pos + data.length) := by
  simp only [RingBuf.put, length_append, length_take, length_drop]
  omega

/-- The state after a write of `data` at the end position. -/
def append (b : SimpleFile) (data : List UInt8) (eof : Bool) : SimpleFile :=
  { b with
    store := pwrite b.store b.endpos data
    endpos := b.endpos + data.length
    bytesIn := b.bytesIn + data.length
    hasEof := eof }

/-- Bytes that are written behind the end position, up to the limit. -/
theorem append_straight (hb : b.Inv) (h : b.readpos ≤ b.endpos)
    {data : List UInt8} (hroom : b.endpos + data.length ≤ b.maxStoreSize) (eof : Bool) :
    (b.append data eof).Inv ∧ (b.append data eof).content = b.content ++ data := by
  have hlen := length_put_le hb.filled data
  have hstore := hb.store_le
  have hput : (b.append data eof).store = RingBuf.put b.store b.endpos data :=
    pwrite_eq hb.filled data
  constructor
  · constructor
    · exact hb.pos
    · exact hb.noLock
    · exact hroom
    · exact hb.read_le
    · rw [hput, hlen]
      show max _ _ ≤ b.maxStoreSize
      omega
    · rw [hput, hlen]
      exact le_max_right _ _
    · intro hlt
      have hlt : b.endpos + data.length < b.readpos := hlt
      omega
    · intro hr
      have hfull := hb.ring hr
      rw [hput, hlen]
      show max _ _ = b.maxStoreSize
      omega
  · have hnew : (b.append data eof).readpos ≤ (b.append data eof).endpos := by
      show b.readpos ≤ b.endpos + data.length
      omega
    rw [content_straight h, content_straight hnew, hput]
    exact RingBuf.drop_take_put h hb.filled

/-- Bytes that are written at the front of the store, behind which there are others to read. -/
theorem append_wrapped (hb : b.Inv) {data : List UInt8}
    (hroom : b.endpos + data.length < b.readpos) (eof : Bool) :
    (b.append data eof).Inv ∧ (b.append data eof).content = b.content ++ data := by
  have hring := hb.wrapped (by omega)
  have hfull := hb.ring hring
  have hlen := length_put_le hb.filled data
  have hread := hb.read_le
  have hput : (b.append data eof).store = RingBuf.put b.store b.endpos data :=
    pwrite_eq hb.filled data
  have hlen' : (RingBuf.put b.store b.endpos data).length = b.maxStoreSize := by
    omega
  constructor
  · constructor
    · exact hb.pos
    · exact hb.noLock
    · show b.endpos + data.length ≤ b.maxStoreSize
      omega
    · exact hread
    · rw [hput, hlen']
      exact le_rfl
    · rw [hput, hlen']
      show b.endpos + data.length ≤ b.maxStoreSize
      omega
    · exact fun _ => hring
    · rw [hput, hlen']
      exact fun _ => rfl
  · have htake : (RingBuf.put b.store b.endpos data).take (b.endpos + data.length) =
        b.store.take b.endpos ++ data := by
      have h := @RingBuf.drop_take_put _ data _ _ (Nat.zero_le b.endpos) hb.filled
      simpa using h
    rw [content_wrapped (show b.endpos < b.readpos by omega),
      content_wrapped (show (b.append data eof).endpos < (b.append data eof).readpos from hroom), hput]
    show (RingBuf.put b.store b.endpos data).drop b.readpos ++
      (RingBuf.put b.store b.endpos data).take (b.endpos + data.length) = _
    rw [RingBuf.drop_put (by omega) hb.filled, htake, append_assoc]

/-- The end position goes back to the front of a complete store. -/
theorem enterRing (hb : b.Inv) (hend : b.endpos = b.maxStoreSize) (hread : b.readpos ≠ 0) :
    ({ b with endpos := 0, ringMode := true } : SimpleFile).Inv ∧
      ({ b with endpos := 0, ringMode := true } : SimpleFile).content = b.content := by
  have hfull : b.store.length = b.maxStoreSize := by
    have := hb.store_le
    have := hb.filled
    omega
  have hle := hb.read_le
  constructor
  · exact ⟨hb.pos, hb.noLock, Nat.zero_le _, hle, hb.store_le, Nat.zero_le _, fun _ => rfl,
      fun _ => hfull⟩
  · rw [content_straight (show b.readpos ≤ b.endpos by omega),
      content_wrapped (show 0 < b.readpos by omega), take_zero, append_nil,
      take_of_length_le (by rw [length_drop]; omega)]

/-- Behind the end position there is room for `n` bytes. -/
def Fits (b : SimpleFile) (n : Nat) : Prop :=
  b.readpos ≤ b.endpos ∧ (b.maxStoreSize ≠ 0 → b.endpos + n ≤ b.maxStoreSize) ∨
    b.endpos + n < b.readpos

theorem Fits.mono {n m : Nat} (h : b.Fits n) (hle : m ≤ n) : b.Fits m := by
  unfold Fits at *
  omega

/-- The end position may have gone back to the front. -/
def Turned (b b' : SimpleFile) : Prop :=
  b' = b ∨ b.endpos = b.maxStoreSize ∧ b.maxStoreSize ≠ 0 ∧ b.readpos ≠ 0 ∧
    b' = { b with endpos := 0, ringMode := true }

theorem writeRoom_fits (hfilled : b.endpos ≤ b.store.length)
    (hle : b.maxStoreSize ≠ 0 → b.endpos ≤ b.maxStoreSize) {len wsize : Nat} {b' : SimpleFile}
    (h : b.writeRoom len = some (b', wsize)) :
    wsize ≤ len ∧ Turned b b' ∧ b'.endpos ≤ b'.store.length ∧ b'.Fits wsize := by
  unfold writeRoom at h
  unfold Fits
  split_ifs at h with hlt hend hread hmax
  · cases h
    exact ⟨by omega, .inl rfl, hfilled, by omega⟩
  · cases h
    exact ⟨by omega, .inr ⟨hend.2, hend.1, hread.1, rfl⟩, Nat.zero_le _, by dsimp only; omega⟩
  · cases h
    exact ⟨by omega, .inl rfl, hfilled, by omega⟩
  · cases h
    exact ⟨le_rfl, .inl rfl, hfilled, by omega⟩

/-- What a write does: the bytes it accepts go behind the end position. -/
theorem write_append (hfilled : b.endpos ≤ b.store.length)
    (hle : b.maxStoreSize ≠ 0 → b.endpos ≤ b.maxStoreSize) (data : List UInt8) (iseof : Bool)
    (io : Option Nat) :
    ∃ b' e n, Turned b b' ∧ (b.write data iseof io).2.getD 0 = n ∧ n ≤ data.length ∧
      b'.Fits n ∧ (b.write data iseof io).1 = b'.append (data.take n) e := by
  have hfits : b.Fits 0 := by
    unfold Fits
    omega
  have hkeep : ∀ (b : SimpleFile) e, b.endpos ≤ b.store.length →
      { b with hasEof := e } = b.append (data.take 0) e := by
    intro b e h
    rw [append, pwrite_eq h, RingBuf.put]
    simp
  unfold write
  split
  · exact ⟨b, _, 0, .inl rfl, rfl, Nat.zero_le _, hfits, hkeep b _ hfilled⟩
  split
  · exact ⟨b, _, 0, .inl rfl, rfl, Nat.zero_le _, hfits, hkeep b _ hfilled⟩
  split
  · exact ⟨b, _, 0, .inl rfl, rfl, Nat.zero_le _, hfits, hkeep b _ hfilled⟩
  rename_i b' wsize hw
  obtain ⟨hsize, hb', hend, hroom⟩ := writeRoom_fits hfilled hle hw
  split
  · exact ⟨b', _, 0, hb', rfl, Nat.zero_le _, hroom.mono (Nat.zero_le _), hkeep b' _ hend⟩
  · rename_i k
    refine ⟨b', iseof && decide (min k wsize = data.length), min k wsize, hb', rfl, by omega,
      hroom.mono (min_le_right _ _), ?_⟩
    rw [append, length_take, min_eq_left (by omega : min k wsize ≤ data.length)]

/-- **Writing.** The bytes that a write reports as accepted go to the end of the queue. -/
theorem write_content (hb : b.Inv) (data : List UInt8) (iseof : Bool) (io : Option Nat) :
    (b.write data iseof io).1.Inv ∧ (b.write data iseof io).1.content =
      b.content ++ data.take ((b.write data iseof io).2.getD 0) := by
  obtain ⟨b', e, n, hb', hret, hn, hfits, hwrite⟩ :=
    write_append hb.filled (fun _ => hb.end_le) data iseof io
  have hkeep : b'.Inv ∧ b'.content = b.content := by
    rcases hb' with rfl | ⟨hend, -, hread, rfl⟩
    · exact ⟨hb, rfl⟩
    · exact enterRing hb hend hread
  have hlen : (data.take n).length = n := by
    rw [length_take]
    omega
  rw [hwrite, hret, ← hkeep.2]
  rcases hfits with ⟨hle, hroom⟩ | hroom
  · exact append_straight hkeep.1 hle (by rw [hlen]; exact hroom (Nat.ne_of_gt hkeep.1.pos)) e
  · exact append_wrapped hkeep.1 (by rw [hlen]; exact hroom) e

/-- An operation on the file. -/
inductive Op where
  | write (data : List UInt8) (iseof : Bool) (io : Option Nat)
  | read (len : Nat) (io : Option Nat)

def op (b : SimpleFile) : Op → SimpleFile × Fifo.Event UInt8
  | .write data iseof io =>
    ((b.write data iseof io).1, .wrote data ((b.write data iseof io).2.getD 0))
  | .read len io => ((b.read len io).1, .got len (b.read len io).2.bytes)

/-- The read position has reached the end of the store while the end position is at its front:
the file is empty, but a read takes it for a complete one. -/
def ReadsStale (b : SimpleFile) : Op → Prop
  | .read len (some k) => len ≠ 0 ∧ k ≠ 0 ∧ b.readpos = b.maxStoreSize ∧ b.endpos = 0
  | _ => False

instance (b : SimpleFile) (o : Op) : Decidable (b.ReadsStale o) := by
  unfold ReadsStale
  split <;> infer_instance

theorem wrapRead_content (hb : b.Inv) (hne : b.readpos ≠ b.endpos) :
    b.wrapRead.Inv ∧ b.wrapRead.content = b.content := by
  unfold wrapRead
  split
  · have hle := hb.end_le
    have hlt : b.endpos < b.readpos := by omega
    have hfull := hb.ring (hb.wrapped hlt)
    constructor
    · exact ⟨hb.pos, hb.noLock, hle, Nat.zero_le _, hb.store_le, hb.filled,
        fun h => absurd h (Nat.not_lt_zero _), hb.ring⟩
    · rw [content_wrapped hlt, content_straight (Nat.zero_le _),
        drop_eq_nil_of_le (show b.store.length ≤ b.readpos by omega)]
      simp
  · exact ⟨hb, rfl⟩

/-- The state after a read of `out`. -/
def taken (b : SimpleFile) (out : List UInt8) : SimpleFile :=
  { b with readpos := b.readpos + out.length, bytesOut := b.bytesOut + out.length }

/-- Bytes are taken from behind the read position. -/
theorem taken_content (hb : b.Inv) {n : Nat} {out : List UInt8}
    (hout : out = (b.store.drop b.readpos).take n)
    (h : b.readpos + n ≤ b.endpos ∨ b.endpos < b.readpos ∧ b.readpos + n ≤ b.maxStoreSize) :
    (b.taken out).Inv ∧ b.content = out ++ (b.taken out).content := by
  have hfilled := hb.filled
  have hle := hb.end_le
  have hring : b.endpos < b.readpos → b.store.length = b.maxStoreSize := fun hlt =>
    hb.ring (hb.wrapped hlt)
  have hlen : out.length = n := by
    rw [hout, length_take, length_drop]
    omega
  constructor
  · refine ⟨hb.pos, hb.noLock, hle, ?_, hb.store_le, hfilled, fun hlt => hb.wrapped ?_, hb.ring⟩
    · show b.readpos + out.length ≤ b.maxStoreSize
      omega
    · have hlt : b.endpos < b.readpos + out.length := hlt
      omega
  rcases h with hn | ⟨hlt, hn⟩
  · have hsplit : b.endpos - b.readpos = n + (b.endpos - (b.readpos + n)) := by omega
    rw [content_straight (show b.readpos ≤ b.endpos by omega),
      content_straight (show b.readpos + out.length ≤ b.endpos by omega), hsplit, take_add,
      drop_drop, ← hout, taken, hlen]
  · rw [content_wrapped hlt, content_wrapped (show b.endpos < b.readpos + out.length by omega),
      ← append_assoc, taken, hlen, hout, ← drop_drop, take_append_drop]

theorem read_nothing {len : Nat} (h : len = 0 ∨ b.readpos = b.endpos) (io : Option Nat) :
    (b.read len io).1 = b ∧ (b.read len io).2.bytes = [] := by
  unfold read
  split_ifs
  · exact ⟨rfl, rfl⟩
  · exact ⟨rfl, rfl⟩
  · exact ⟨rfl, rfl⟩
  · exact absurd h (by simp [*])

/-- What a read does if the file is not empty. -/
theorem read_taken {len : Nat} (hlen : len ≠ 0) (hne : b.readpos ≠ b.endpos) (io : Option Nat) :
    ∃ n, (b.read len io).1 = b.wrapRead.taken ((b.wrapRead.store.drop b.wrapRead.readpos).take n) ∧
      (b.read len io).2.bytes = (b.wrapRead.store.drop b.wrapRead.readpos).take n ∧
      (n = 0 ∨ ∃ k m, io = some k ∧ k ≠ 0 ∧ b.wrapRead.available = some m ∧ n ≤ m) := by
  unfold read
  rw [if_neg hlen, if_neg hne]
  dsimp only
  cases hav : b.wrapRead.available with
  | none => exact ⟨0, by simp [taken], by simp [ReadRet.bytes], .inl rfl⟩
  | some m =>
    cases io with
    | none => exact ⟨0, by simp [taken], by simp [ReadRet.bytes], .inl rfl⟩
    | some k =>
      refine ⟨min k (min m len), rfl, rfl, ?_⟩
      rcases Nat.eq_zero_or_pos k with rfl | hk
      · exact .inl (Nat.zero_min _)
      · exact .inr ⟨k, m, rfl, by omega, rfl, by omega⟩

theorem wrapRead_ne (hne : b.readpos ≠ b.endpos) (hok : b.readpos = b.maxStoreSize → b.endpos ≠ 0) :
    b.wrapRead.readpos ≠ b.wrapRead.endpos := by
  unfold wrapRead
  split_ifs with hend
  · exact (hok hend.2).symm
  · exact hne

/-- How far a read without locks can go. -/
theorem available_le (hlock : b.useLock = false) (hne : b.readpos ≠ b.endpos)
    (hle : b.readpos ≤ b.maxStoreSize) {m : Nat} (hm : b.available = some m) :
    b.readpos + m ≤ b.endpos ∨ b.endpos < b.readpos ∧ b.readpos + m ≤ b.maxStoreSize := by
  unfold available at hm
  rw [hlock, if_neg (by simp)] at hm
  split_ifs at hm with hlt
  · cases hm
    omega
  · cases hm
    omega

/-- **Reading.** Where the file is not taken for a complete one, a read returns bytes from the
front of the queue. -/
theorem read_content (hb : b.Inv) {len : Nat} {io : Option Nat}
    (hok : ¬ b.ReadsStale (.read len io)) :
    (b.read len io).1.Inv ∧ b.content = (b.read len io).2.bytes ++ (b.read len io).1.content := by
  by_cases hnone : len = 0 ∨ b.readpos = b.endpos
  · obtain ⟨hread, hbytes⟩ := read_nothing hnone io
    rw [hread, hbytes]
    exact ⟨hb, rfl⟩
  obtain ⟨hlen, hne⟩ := not_or.mp hnone
  obtain ⟨hinv, hcont⟩ := wrapRead_content hb hne
  obtain ⟨n, hread, hbytes, hn⟩ := read_taken hlen hne io
  rw [hread, hbytes, ← hcont]
  rcases hn with rfl | ⟨k, m, rfl, hk, hm, hn⟩
  · exact ⟨hinv, rfl⟩
  · have hle := available_le hinv.noLock
      (wrapRead_ne hne fun hr he => hok ⟨hlen, hk, hr, he⟩) hinv.read_le hm
    exact taken_content hinv rfl (by omega)

/-- A read that takes an empty file for a complete one returns old bytes. -/
theorem read_stale (hb : b.Inv) {o : Op} (h : b.ReadsStale o) :
    b.content = [] ∧ (b.op o).2.returned ≠ [] := by
  cases o with
  | write => cases h
  | read len io =>
    cases io with
    | none => cases h
    | some k =>
      obtain ⟨hlen, hk, hread, hend⟩ := h
      have hpos := hb.pos
      have hlt : b.endpos < b.readpos := by omega
      have hfull := hb.ring (hb.wrapped hlt)
      constructor
      · rw [content_wrapped hlt, hend, take_zero, append_nil]
        exact drop_eq_nil_of_le (by omega)
      · have hwrap : b.wrapRead = { b with readpos := 0 } := if_pos ⟨by omega, hread⟩
        have hav : b.wrapRead.available = some b.maxStoreSize := by
          rw [hwrap]
          unfold available
          dsimp only
          rw [hb.noLock, if_neg (by simp), if_neg (by omega), if_pos (by omega)]
          rfl
        show (b.read len (some k)).2.bytes ≠ []
        unfold read
        rw [if_neg hlen, if_neg (by omega)]
        dsimp only
        rw [hav, hwrap]
        show (b.store.drop 0).take (min k (min b.maxStoreSize len)) ≠ []
        intro hnil
        have hl := congrArg length hnil
        rw [drop_zero, length_take, length_nil] at hl
        omega

/-- One operation, where the file is not taken for a complete one. -/
theorem op_moves (hb : b.Inv) {o : Op} (hok : ¬ b.ReadsStale o) :
    (b.op o).1.Inv ∧ Fifo.Moves b.content (b.op o).2 (b.op o).1.content := by
  cases o with
  | write data iseof io =>
    obtain ⟨hinv, hcont⟩ := write_content hb data iseof io
    exact ⟨hinv, hcont.symm⟩
  | read len io =>
    obtain ⟨hinv, hcont⟩ := read_content hb hok
    refine ⟨hinv, ?_⟩
    unfold Fifo.Moves
    rw [show (b.op (.read len io)).2.accepted = [] from rfl, append_nil]
    exact hcont

theorem read_asserts (hb : b.Inv) (len : Nat) : b.ReadAsserts len := by
  have hend := hb.end_le
  intro _ hne
  unfold wrapRead
  refine ⟨fun _ hread => ?_, fun hlock => ?_, fun _ => ?_⟩
  · have hlt : b.endpos < b.readpos := by omega
    exact ⟨hlt, hb.wrapped hlt⟩
  · rw [hb.noLock] at hlock
    cases hlock.1
  · split_ifs with hr
    · exact fun _ => ⟨.inr rfl, hb.wrapped (by omega)⟩
    · exact fun hle => ⟨.inl (by omega), hb.wrapped (by omega)⟩

def accepted (b : SimpleFile) (ops : List Op) : List UInt8 :=
  (Fifo.trace op b ops).flatMap Fifo.Event.accepted

def delivered (b : SimpleFile) (ops : List Op) : List UInt8 :=
  (Fifo.trace op b ops).flatMap Fifo.Event.returned

/-- The operations of a run that do not take the file for a complete one. -/
abbrev NeverStale (b : SimpleFile) (ops : List Op) : Prop :=
  Machine.AllSteps (fun b o => (op b o).1) (fun b o => ¬ b.ReadsStale o) b ops

theorem conserve (hb : b.Inv) {ops : List Op} (hok : b.NeverStale ops) : (Fifo.final op b ops).Inv ∧
      b.content ++ b.accepted ops = b.delivered ops ++ (Fifo.final op b ops).content := by
  have hstep : ∀ (b : SimpleFile) (o : Op), b.Inv → ¬ b.ReadsStale o →
      (b.op o).1.Inv ∧ Fifo.Moves b.content (b.op o).2 (b.op o).1.content :=
    fun _ _ hb hok => op_moves hb hok
  exact Fifo.conserve hstep hb hok

/-- **The simple file.** At every point of a run the bytes delivered are a prefix of those
accepted if and only if no read of the run takes an empty file for a complete one. -/
theorem delivered_prefix_iff {maxsize : Int} (h : 0 < maxsize) (ops : List Op) :
    (∀ n, (new maxsize).delivered (ops.take n) <+: (new maxsize).accepted (ops.take n)) ↔
      (new maxsize).NeverStale ops := by
  have hnil : (new maxsize).content = [] := rfl
  constructor
  · intro hall
    -- up to the first operation that fails everything accepted has been delivered
    by_contra hbad
    obtain ⟨n, o, hpre, hn, hstale⟩ := Machine.first_failure hbad
    have hstale := not_not.mp hstale
    obtain ⟨hinv, hcons⟩ := conserve (new_inv h) hpre
    obtain ⟨hempty, hret⟩ := read_stale hinv hstale
    rw [hempty, hnil, nil_append] at hcons
    have htake : ops.take (n + 1) = ops.take n ++ [o] := by
      rw [take_add_one, hn]
      rfl
    have hlast := (hall (n + 1)).length_le
    have hacc : ((Fifo.final op (new maxsize) (ops.take n)).op o).2.accepted = [] := by
      cases o with
      | write => cases hstale
      | read => rfl
    unfold accepted delivered at hlast hcons
    rw [htake, Fifo.trace_append, flatMap_append, flatMap_append, hcons] at hlast
    simp only [Fifo.trace, flatMap_cons, flatMap_nil, append_nil, hacc, length_append] at hlast
    have hpos := length_pos_iff.mpr hret
    omega
  · intro hok n
    have hpre : (new maxsize).NeverStale (ops.take n) := Machine.AllSteps.take hok n
    obtain ⟨-, hcons⟩ := conserve (new_inv h) hpre
    exact ⟨_, hcons.symm⟩

/-- A file of three bytes that is written over its end. -/
theorem delivered_prefix_three :
    let ops := [Op.write [1, 2, 3] false (some 9), .read 2 (some 9), .write [4, 5] true (some 9),
      .read 9 (some 9), .read 9 (some 9)]
    (new 3).NeverStale ops ∧ (new 3).delivered ops = [1, 2, 3, 4] ∧
      ∀ n, (new 3).delivered (ops.take n) <+: (new 3).accepted (ops.take n) := by
  intro ops
  have hok : (new 3).NeverStale ops := by decide
  exact ⟨hok, by decide, (delivered_prefix_iff (by decide) ops).mpr hok⟩

/-- One byte of a full file of two is read, a write finds no room, the other byte is read: the
next read returns the first byte again. -/
theorem delivered_not_prefix :
    let ops := [Op.write [1, 2] false (some 9), .read 1 (some 9), .write [3] false (some 9),
      .read 1 (some 9), .read 1 (some 9)]
    (new 2).accepted ops = [1, 2] ∧ (new 2).delivered ops = [1, 2, 1] := by
  decide

end SimpleFile

end CIcap
