import CIcap.Lib.CText

/-! # The receive side of a request and the chunk parser

`Reader` holds the fields of `ci_request_t` that `net_data_read` and `parse_chunk_data` work
on (`request_common.c`). The bytes that `pstrblock_read` points to and their number
`pstrblock_read_len` are one list, `pstrblockRead`; the pointer `wdata` that the parser hands
to its caller is the list of bytes it points to.

The parser may leave the block it was given: `strtol` skips line ends as white space, and a
chunk size of `2^31` or more makes the signed `remains` negative and moves the read pointer
backwards. The model stops there with the result `ChunkRet.wild`.
-/

namespace CIcap

open CText

/-- `BUFSIZE`, the size of `rbuf`. -/
def bufSize : Nat := 4096

/-- The results of `parse_chunk_data`: `CI_ERROR`, `CI_NEEDS_MORE`, `CI_OK`, `CI_EOF`, and
`wild` where the C code reads or moves outside the received bytes. -/
inductive ChunkRet where
  | error
  | needsMore
  | ok
  | eof
  | wild
  deriving DecidableEq, Repr

/-- The fields of `ci_request_t` on the receive side. -/
structure Reader where
  /-- `pstrblock_read`, `pstrblock_read_len` -/
  pstrblockRead : List UInt8 := []
  /-- `current_chunk_len`, an `unsigned int`; the line end of the chunk is counted in it -/
  currentChunkLen : Nat := 0
  /-- `chunk_bytes_read`, an `unsigned int` -/
  chunkBytesRead : Nat := 0
  writeToModulePending : Nat := 0
  eofReceived : Bool := false
  /-- `i206_use_original_body` -/
  i206UseOriginalBody : Int := -1
  bytesIn : Nat := 0
  requestBytesIn : Nat := 0
  httpBytesIn : Nat := 0
  bodyBytesIn : Nat := 0
  deriving DecidableEq, Repr

/-- Conversion to the 32 bit `int`. -/
def toInt32 (z : Int) : Int := Int.bmod z (2 ^ 32)

/-- Conversion to the 32 bit `unsigned int`. -/
def toUInt32 (z : Int) : Nat := (z % 2 ^ 32).toNat

/-- The end of a size line: `end` must stand at `\r\n`; then the line, `chunkLen` bytes with
its line ends, is taken off the block. -/
def endChunkDef (r : Reader) (chunkLen : Nat) : List UInt8 → Option ChunkRet × Reader
  | 13 :: 10 :: _ => (none, { r with pstrblockRead := r.pstrblockRead.drop chunkLen })
  | [] => (some .wild, r)
  | [13] => (some .wild, r)
  | _ => (some .error, r)

/-- The extension of a last chunk, `end` standing behind its `;`. -/
def lastChunkExt (r : Reader) (chunkLen : Nat) (stop : List UInt8) : Option ChunkRet × Reader :=
  match skipWhile isBlank stop with
  | none => (some .wild, r)
  | some stop =>
    -- `remains`, the bytes from `end` to the end of the block, is `stop.length`
    let ext : Except ChunkRet (Reader × List UInt8) :=
      if 18 ≤ stop.length ∧ stop.take 18 = bytes "use-original-body=" then
        match strtol 10 (stop.drop 18) with
        | none => .error .wild
        | some (v, stop) => .ok ({ r with i206UseOriginalBody := v }, stop)
      else if 4 ≤ stop.length ∧ stop.take 4 ≠ bytes "ieof" then .error .error
      else .ok (r, stop)
    match ext with
    | .error e => (some e, r)
    | .ok (r, stop) =>
      match skipWhile (· != 13) stop with
      | none => (some .wild, r)
      | some stop => endChunkDef { r with eofReceived := true } chunkLen stop

/-- A size line with the size zero: the block must hold the second line end too. -/
def lastChunkDef (r : Reader) (chunkLen : Nat) (stop : List UInt8) : Option ChunkRet × Reader :=
  match r.pstrblockRead.drop chunkLen with
  | a :: b :: _ =>
    if a ≠ 13 ∧ b ≠ 10 then (some .error, r)
    else
      let r := { r with requestBytesIn := r.requestBytesIn + 2 }
      match stop with
      | 59 :: stop => lastChunkExt r (chunkLen + 2) stop
      | stop => endChunkDef r (chunkLen + 2) stop
  | _ => (some .needsMore, r)

/-- The `READ_CHUNK_DEF` branch. The first component is the value returned, or `none` when
the size line has been taken and the loop goes on. -/
def readChunkDef (r : Reader) : Option ChunkRet × Reader :=
  match findCrlf r.pstrblockRead with
  | none =>
    -- too big chunk definition
    if bufSize ≤ r.pstrblockRead.length then (some .error, r) else (some .needsMore, r)
  | some i =>
    let chunkLen := i + 2
    let r := { r with requestBytesIn := r.requestBytesIn + chunkLen }
    match strtol 16 r.pstrblockRead with
    | none => (some .wild, r)
    | some (v, stop) =>
      let tmp := toInt32 v
      if tmp = 0 ∧ stop.length = r.pstrblockRead.length then (some .error, r)
      else
        let r := { r with currentChunkLen := toUInt32 tmp, chunkBytesRead := 0 }
        match skipWhile isBlank stop with
        | none => (some .wild, r)
        | some stop =>
          if r.currentChunkLen = 0 then lastChunkDef r chunkLen stop
          else
            -- include the `\r\n` end of chunk data
            endChunkDef { r with currentChunkLen := (r.currentChunkLen + 2) % 2 ^ 32 }
              chunkLen stop

/-- `n` bytes of the block are taken, the first `pending` of them are data for the service. -/
def takeChunkData (r : Reader) (n pending : Nat) : Reader :=
  { r with
    pstrblockRead := r.pstrblockRead.drop n
    chunkBytesRead := (r.chunkBytesRead + n) % 2 ^ 32
    writeToModulePending := pending
    httpBytesIn := r.httpBytesIn + pending
    bodyBytesIn := r.bodyBytesIn + pending
    requestBytesIn := r.requestBytesIn + n }

/-- The `READ_CHUNK_DATA` branch on a nonempty block: the data handed out, or `none` when the
signed number of remaining bytes is negative. -/
def readChunkData (r : Reader) : Option (List UInt8 × Reader) :=
  let len := r.pstrblockRead.length
  let remains := toInt32 ((r.currentChunkLen : Int) - r.chunkBytesRead)
  if remains ≤ len then
    if remains < 0 then none
    else
      let n := remains.toNat
      -- all or part of the `\r\n` end of chunk data is no data
      let pending := if 2 < n then n - 2 else 0
      some (r.pstrblockRead.take pending, takeChunkData r n pending)
  else
    let tmp := remains.toNat - len
    let pending := if tmp < 2 then len - tmp else len
    some (r.pstrblockRead.take pending, takeChunkData r len pending)

/-- A round of the loop once the size line, if there was one to read, is taken: a value is
returned (left), or the loop goes on with the data read (right). -/
def chunkRound (wdata : Option (List UInt8)) (r : Reader) :
    (ChunkRet × Option (List UInt8) × Reader) ⊕ (List UInt8 × Reader) :=
  -- zero chunk received, stop for now
  if r.currentChunkLen = 0 then .inl (.eof, wdata, r)
  -- if we have data for service leaving this function now
  else if r.writeToModulePending ≠ 0 then .inl (.ok, wdata, r)
  else if r.pstrblockRead = [] then .inl (.needsMore, wdata, r)
  else
    match readChunkData r with
    | none => .inl (.wild, wdata, r)
    | some (w, r) => if r.pstrblockRead = [] then .inl (.needsMore, some w, r) else .inr (w, r)

/-- The `while (1)` of `parse_chunk_data`. Every round takes at least one byte of the block,
so its length is enough fuel. `wdata` is the pointer handed to the caller. -/
def parseChunkLoop : Nat → Option (List UInt8) → Reader → ChunkRet × Option (List UInt8) × Reader
  | 0, wdata, r => (.wild, wdata, r)
  | fuel + 1, wdata, r =>
    let (ret, r) :=
      if r.currentChunkLen = r.chunkBytesRead then readChunkDef r else (none, r)
    match ret with
    | some ret => (ret, wdata, r)
    | none =>
      match chunkRound wdata r with
      | .inl res => res
      | .inr (w, r) => parseChunkLoop fuel (some w) r

/-- What follows a round of the loop. -/
def afterRound (fuel : Nat) : (ChunkRet × Option (List UInt8) × Reader) ⊕ (List UInt8 × Reader) →
    ChunkRet × Option (List UInt8) × Reader
  | .inl res => res
  | .inr (w, r) => parseChunkLoop fuel (some w) r

/-- `parse_chunk_data`: the result, the pointer `*wdata` and the request. -/
def parseChunkData (r : Reader) : ChunkRet × Option (List UInt8) × Reader :=
  if r.writeToModulePending ≠ 0 then (.error, none, r)
  else parseChunkLoop (r.pstrblockRead.length + 1) none r

/-- `net_data_read` when the connection has delivered `got`; `none` is `CI_ERROR` for a full
buffer. The caller asks the connection for `netReadRoom` bytes. -/
def netDataRead (r : Reader) (got : List UInt8) : Option Reader :=
  if bufSize ≤ r.pstrblockRead.length then none
  else some { r with
    pstrblockRead := r.pstrblockRead ++ got
    bytesIn := r.bytesIn + got.length }

/-- The number of bytes `net_data_read` asks the connection for. -/
def netReadRoom (r : Reader) : Nat := bufSize - r.pstrblockRead.length

end CIcap
