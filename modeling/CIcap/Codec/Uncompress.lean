import Mathlib.Tactic

/-! # The decoders of compressed bodies

The loops of `decode.c` over the libraries for gzip and deflate, bzip2, brotli and zstd. In every
round a decoder asks the library for the next block of output and passes it to `writefunc`. What
the library, the buffers of `get_outbuf` and `writefunc` do in a round is a `Round`; behind the
last round the library answers that it can do no more.

The sizes that are compared are `unsigned` and `ci_off_t`. The space that is left under `max_size`
is never negative in the first three decoders; in the last one it is a `size_t` when it is passed.
-/

namespace CIcap

/-- `CI_UNCOMPRESS_ERRORS` -/
inductive Uncomp where
  | errBomb
  | errCorrupt
  | errOutput
  | errError
  | errNone
  | ok
deriving DecidableEq, Repr

/-- A round: the size of the output buffer, if there is one, the block the library writes to it,
the input that is left then, the status of the library, and whether `writefunc` returns the length
it is given. -/
structure Round (σ : Type) where
  outbuf : Option Nat
  out : List UInt8
  availIn : Nat
  status : σ
  accepts : Bool
  fits : out.length ≤ outbuf.getD 0

/-- A call of `writefunc` with the first `len` bytes of a buffer of `room` bytes that starts with
the block `data`. -/
structure Pass where
  data : List UInt8
  room : Nat
  len : Nat
  accepted : Bool
deriving DecidableEq

/-- What a decoder does in a round: whether the library was called (a call that is made again on
the same input does not count), what it passes to `writefunc`, and its return value or the state
with which it goes on. -/
structure Turn (τ : Type) where
  made : Bool
  pass : Option Pass
  next : Uncomp ⊕ τ

/-- What a decoder has done: the rounds of the library, the calls of `writefunc` and the return
value, `none` if it never returns. -/
structure Decoded (σ : Type) where
  made : List (Round σ)
  passes : List Pass
  code : Option Uncomp

section Decode

variable {σ τ : Type}

def decode (turn : τ → Round σ → Turn τ) (idle : τ → Round σ) : τ → List (Round σ) → Decoded σ
  | s, [] =>
    let t := turn s (idle s)
    { made := if t.made then [idle s] else []
      passes := t.pass.toList
      code :=
        match t.next with
        | .inl code => some code
        | .inr _ => none }
  | s, r :: rounds =>
    let t := turn s r
    let rest : Decoded σ :=
      match t.next with
      | .inl code => { made := [], passes := [], code := some code }
      | .inr s' => decode turn idle s' rounds
    { made := (if t.made then [r] else []) ++ rest.made
      passes := t.pass.toList ++ rest.passes
      code := rest.code }

/-- A return without a call of `writefunc`. -/
def Turn.stop (made : Bool) (code : Uncomp) : Turn τ :=
  { made := made, pass := none, next := .inl code }

/-- How many of `have_` bytes are passed to `writefunc`. -/
def canWrite (maxSize unzipped : Int) (have_ : Nat) : Nat :=
  if 0 < maxSize ∧ maxSize - unzipped < have_ then (maxSize - unzipped).toNat else have_

/-- What is returned when there was more than `max_size`. -/
def tooBig (unzipped : Int) (inlen : Nat) (code : Uncomp) : Uncomp :=
  if 100 < unzipped / inlen then .errBomb else code

/-- The part of a round that is the same in three of the decoders. -/
def passOn (maxSize : Int) (inlen : Nat) (unzipped : Int) (have_ : Nat) (r : Round σ)
    (go : Int → Uncomp ⊕ τ) : Turn τ :=
  let written := canWrite maxSize unzipped have_
  { made := true
    pass := some { data := r.out, room := r.outbuf.getD 0, len := written, accepted := r.accepts }
    next :=
      if r.accepts = false then .inl .errOutput
      else if written < have_ then .inl (tooBig (unzipped + written) inlen .errNone)
      else go (unzipped + written) }

end Decode

/-- `CHUNK` -/
def chunkSize : Nat := 8192

/-! ## zlib -/

/-- The return values of `inflate`; for those that are tried again, whether `inflateReset2`
succeeds. -/
inductive ZStatus where
  | ok
  | streamEnd
  | bufError
  | needDict (reset : Bool)
  | dataError (reset : Bool)
  | streamError
  | memError
deriving DecidableEq, Repr

structure InflateState where
  retriable : Bool
  unzipped : Int
  ended : Bool
deriving DecidableEq, Repr

/-- A round of `ci_mem_inflate` -/
def inflateTurn (maxSize : Int) (inlen : Nat) (s : InflateState) (r : Round ZStatus) :
    Turn InflateState :=
  if r.outbuf.getD 0 = 0 then .stop false .errOutput
  else
    -- the first error is taken for a missing header
    let retry (reset : Bool) : Turn InflateState :=
      if s.retriable && reset then
        { made := false, pass := none, next := .inr { s with retriable := false } }
      else .stop true .errCorrupt
    match r.status with
    | .needDict reset => retry reset
    | .dataError reset => retry reset
    | .streamError => .stop true .errCorrupt
    | .memError => .stop true .errCorrupt
    | status =>
      passOn maxSize inlen s.unzipped r.out.length r fun unzipped =>
        if r.out.length = r.outbuf.getD 0 then
          .inr { retriable := false, unzipped := unzipped, ended := status = .streamEnd }
        else .inl (if status = .streamEnd then .ok else .errCorrupt)

/-- `inflate` when it can do no more. -/
def inflateIdle (s : InflateState) : Round ZStatus :=
  { outbuf := some chunkSize
    out := []
    availIn := 0
    status := if s.ended then .streamEnd else .bufError
    accepts := true
    fits := Nat.zero_le _ }

/-- `ci_mem_inflate` -/
def memInflate (maxSize : Int) (inlen : Nat) (rounds : List (Round ZStatus)) : Decoded ZStatus :=
  decode (inflateTurn maxSize inlen) inflateIdle
    { retriable := true, unzipped := 0, ended := false } rounds

/-! ## bzip2 -/

/-- The return values of `BZ2_bzDecompress` -/
inductive BzStatus where
  | ok
  | streamEnd
  | sequenceError
  | paramError
  | dataError
  | dataErrorMagic
  | memError
deriving DecidableEq, Repr

structure BzState where
  unzipped : Int
  ended : Bool
deriving DecidableEq, Repr

/-- A round of `ci_mem_bzunzip` -/
def bzunzipTurn (maxSize : Int) (inlen : Nat) (s : BzState) (r : Round BzStatus) : Turn BzState :=
  if r.outbuf.getD 0 = 0 then .stop false .errOutput
  else
    match r.status with
    | .paramError => .stop true .errError
    | .dataError => .stop true .errError
    | .dataErrorMagic => .stop true .errError
    | .memError => .stop true .errError
    | status =>
      if r.out.length = 0 then .stop true .errOutput
      else
        passOn maxSize inlen s.unzipped r.out.length r fun unzipped =>
          if r.out.length = r.outbuf.getD 0 then
            .inr { unzipped := unzipped, ended := status = .streamEnd }
          else .inl .ok

/-- `BZ2_bzDecompress` when it can do no more. -/
def bzunzipIdle (s : BzState) : Round BzStatus :=
  { outbuf := some chunkSize
    out := []
    availIn := 0
    status := if s.ended then .sequenceError else .ok
    accepts := true
    fits := Nat.zero_le _ }

/-- `ci_mem_bzunzip` -/
def memBzunzip (maxSize : Int) (inlen : Nat) (rounds : List (Round BzStatus)) : Decoded BzStatus :=
  decode (bzunzipTurn maxSize inlen) bzunzipIdle { unzipped := 0, ended := false } rounds

/-! ## brotli -/

/-- `BrotliDecoderResult` -/
inductive BrStatus where
  | error
  | success
  | needsMoreInput
  | needsMoreOutput
deriving DecidableEq, Repr

/-- `kFileBufferSize` -/
def fileBufferSize : Nat := 16384

/-- The `switch` of `Br_Decompress` -/
def brNext (r : Round BrStatus) (outsize : Int) : Uncomp ⊕ Int :=
  match r.status with
  | .needsMoreInput => if r.availIn = 0 then .inl .errCorrupt else .inr outsize
  | .needsMoreOutput => .inr outsize
  | .success => if r.availIn ≠ 0 then .inl .errCorrupt else .inl .ok
  | .error => .inl .errCorrupt

/-- A round of `Br_Decompress`. The space that is left in the buffer is taken from the size of its
own buffer, whatever the size of the buffer is. -/
def brTurn (maxSize : Int) (inlen : Nat) (outsize : Int) (r : Round BrStatus) : Turn Int :=
  match r.outbuf with
  | none => .stop false .errOutput
  | some room =>
    let availableOut := room - r.out.length
    let have_ := (((fileBufferSize : Int) - availableOut) % 2 ^ 32).toNat
    passOn maxSize inlen outsize have_ r (brNext r)

/-- The decoder when it can do no more. -/
def brIdle : Round BrStatus :=
  { outbuf := some fileBufferSize
    out := []
    availIn := 0
    status := .needsMoreInput
    accepts := true
    fits := Nat.zero_le _ }

/-- `Br_Decompress` -/
def brDecompress (maxSize : Int) (inlen : Nat) (rounds : List (Round BrStatus)) :
    Decoded BrStatus :=
  decode (brTurn maxSize inlen) (fun _ => brIdle) 0 rounds

/-! ## zstd -/

/-- The return value of `ZSTD_decompressStream`: an error, or a hint for the next input, zero at the
end of a frame -/
inductive ZstdStatus where
  | error
  | hint (n : Nat)
deriving DecidableEq, Repr

/-- How many bytes of a block `ci_mem_zstd_uncompress` passes to `writefunc`; `unzipped` counts the
block. -/
def zstdCanWrite (maxSize unzipped : Int) (pos : Nat) : Nat :=
  let canWriteUpTo := if 0 < maxSize then maxSize - unzipped else 0
  if canWriteUpTo ≠ 0 ∧ canWriteUpTo < pos then (canWriteUpTo % 2 ^ 64).toNat else pos

/-- A round of `ci_mem_zstd_uncompress` -/
def zstdTurn (maxSize : Int) (inlen : Nat) (unzipped : Int) (r : Round ZstdStatus) : Turn Int :=
  match r.status with
  | .error => .stop true .errError
  | .hint _ =>
    let unzipped := unzipped + r.out.length
    { made := true
      pass := some
        { data := r.out
          room := r.outbuf.getD 0
          len := zstdCanWrite maxSize unzipped r.out.length
          accepted := r.accepts }
      next :=
        if r.accepts = false then .inl .errOutput
        else if 0 < maxSize ∧ maxSize < unzipped then .inl (tooBig unzipped inlen .errOutput)
        else if r.availIn = 0 then .inl .ok
        else .inr unzipped }

/-- `ZSTD_decompressStream` when it can do no more although there is input. -/
def zstdIdle : Round ZstdStatus :=
  { outbuf := none, out := [], availIn := 0, status := .error, accepts := true, fits := le_rfl }

/-- `ci_mem_zstd_uncompress` -/
def memZstdUncompress (maxSize : Int) (inlen : Nat) (rounds : List (Round ZstdStatus)) :
    Decoded ZstdStatus :=
  if inlen = 0 then { made := [], passes := [], code := some .ok }
  else decode (zstdTurn maxSize inlen) (fun _ => zstdIdle) 0 rounds

end CIcap
