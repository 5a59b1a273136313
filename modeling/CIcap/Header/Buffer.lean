import CIcap.Header.List
import CIcap.Lib.Segments
import CIcap.Request.Types

/-! # The buffer of a header list

`ci_headers_list_t` of `header.c` as it lies in memory: one buffer with the bytes of all headers
and an index of pointers into it. The buffer moves when it is reallocated, is compacted when a
header is removed and has zeros in place of the line ends while the list is edited.

An allocation has its outcome from an `Allocator`. A call that runs into an `assert` or touches
memory outside the buffer ends in a `Fault`.
-/

namespace CIcap

open CText Segments

/-- The end of a call that does not return. -/
inductive Fault where
  /-- an `assert` fails -/
  | assertion
  /-- memory is accessed outside the buffer or through a null pointer -/
  | memory
  deriving DecidableEq

/-- Memory that an allocation returns: its address, and what stands in its new bytes. -/
structure Memory where
  addr : Nat
  fill : Nat → UInt8 := fun _ => 0

/-- The outcomes of the allocations of one call, by the size that is asked for. -/
structure Allocator where
  object : Bool := true
  /-- the index, for a number of entries -/
  index : Nat → Bool := fun _ => true
  /-- the buffer, for a number of bytes -/
  buffer : Nat → Option Memory := fun _ => some { addr := 0 }

/-- `ci_headers_list_t`; `bufsize` is the length of `buf` and `used` that of `headers`. -/
structure HeaderBuf where
  /-- the address in the field `buf` -/
  addr : Nat
  buf : List UInt8
  bufused : Nat
  /-- the addresses in the used part of the index -/
  headers : List Nat
  /-- the entries the index has room for -/
  size : Nat
  packed : Bool

/-- `HEADSBUFSIZE` -/
def headsBufSize : Nat := 4096

/-- `strncasecmp(s, t, n) == 0` -/
def strncasecmp : List UInt8 → List UInt8 → Nat → Bool
  | _, _, 0 => true
  | s, t, n + 1 =>
    let b := s.headD 0
    lower b = lower (t.headD 0) && (b = 0 || strncasecmp (s.drop 1) (t.drop 1) n)

namespace HeaderBuf

/-- An access to the byte at a position of the buffer. -/
def byte (h : HeaderBuf) (pos : Nat) : Except Fault UInt8 :=
  match h.buf[pos]? with
  | some b => .ok b
  | none => .error .memory

/-- `memcpy` and `memmove` to a position of the buffer. -/
def store (h : HeaderBuf) (pos : Nat) (data : List UInt8) : Except Fault HeaderBuf :=
  if pos + data.length ≤ h.buf.length then .ok { h with buf := write h.buf pos data }
  else .error .memory

/-- `assert` -/
def assert (p : Bool) : Except Fault Unit := if p then .ok () else .error .assertion

/-! ## Space -/

/-- `ci_headers_create2` -/
def create2 (a : Allocator) (num bufSize : Nat) : Except Fault (Option HeaderBuf) := do
  if !a.object then return none
  assert (0 < bufSize)
  assert (0 < num)
  if !a.index num then return none
  match a.buffer bufSize with
  | none => return none
  | some m =>
    return some {
      addr := m.addr
      buf := (List.range bufSize).map m.fill
      bufused := 0
      headers := []
      size := num
      packed := false }

/-- `ci_headers_create` -/
def create (a : Allocator) : Except Fault (Option HeaderBuf) :=
  create2 a headerStartSize headsBufSize

/-- The first loop of `headers_check_space`, with the entries that are needed. -/
def indexSpace (need : Nat) : Nat → Nat → Option Nat
  | 0, required => some required
  | fuel + 1, required =>
    if required < need then
      let required := required + headerStartSize
      if headerIndexLimit < required then none else indexSpace need fuel required
    else some required

/-- The second loop of `headers_check_space`, with the bytes that are needed. -/
def memSpace (need : Nat) : Nat → Nat → Nat
  | 0, required => required
  | fuel + 1, required =>
    if required < need then memSpace need fuel (required + headsBufSize) else required

/-- `headers_check_space`: whether there is space, and the list. Every round of a loop adds more
than one to what it compares, so what is needed is enough fuel. -/
def checkSpace (a : Allocator) (h : HeaderBuf) (newHeaders newSpace : Nat) : Bool × HeaderBuf :=
  match indexSpace (h.headers.length + newHeaders) (h.headers.length + newHeaders) h.size with
  | none => (false, h)
  | some size =>
    if h.size < size ∧ !a.index size then (false, h)
    else
      let h := if h.size < size then { h with size := size } else h
      let need := h.bufused + newSpace + 4
      let space := memSpace need need h.buf.length
      if h.buf.length < space then
        match a.buffer space with
        | none => (false, h)
        | some m =>
          (true, { h with
            addr := m.addr
            buf := h.buf ++ (List.range (space - h.buf.length)).map
              (fun i => m.fill (h.buf.length + i))
            headers := h.headers.map (fun p => m.addr + (p - h.addr)) })
      else (true, h)

/-- A byte that `strchr("\r\n\0", b)` finds. -/
def endByte (b : UInt8) : Bool := b = 13 || b = 10 || b = 0

/-- The used bytes end like those of a closed list. -/
def closed (h : HeaderBuf) : Bool :=
  match (h.buf.take h.bufused).drop (h.bufused - 4) with
  | [b, c, d, e] => (b = 13 || b = 0) && c = 10 && d = 13 && e = 10
  | _ => false

/-- `headers_terminate`. The loop over the line ends at the end of the buffer looks in front of
the buffer when there is nothing else in it. -/
def terminate (h : HeaderBuf) : Except Fault (Bool × HeaderBuf) :=
  if h.headers = [] then .ok (true, { h with bufused := 0 })
  else if h.closed then .ok (true, h)
  else
    let kept := ((h.buf.take h.bufused).reverse.dropWhile endByte).length
    if kept = 0 then .error .memory
    else if h.buf.length < kept + 4 then .ok (false, h)
    else do
      let h ← h.store kept [if h.packed then 13 else 0, 10, 13, 10]
      return (true, { h with bufused := kept + 4 })

/-- `assert(headers_terminate(h))` -/
def assertTerminate (h : HeaderBuf) : Except Fault HeaderBuf := do
  let (ok, h) ← h.terminate
  assert ok
  return h

/-! ## Editing -/

/-- The list without the blank line at its end, to which headers are then appended. -/
def openEnd (h : HeaderBuf) : Except Fault HeaderBuf := do
  if h.headers ≠ [] then
    assert (4 ≤ h.bufused)
    return { h with bufused := h.bufused - 2 }
  else
    assert (h.bufused = 0)
    return h

/-- New pointers at the end of the index. -/
def pushHeaders (h : HeaderBuf) (ps : List Nat) : Except Fault HeaderBuf :=
  if h.headers.length + ps.length ≤ h.size then .ok { h with headers := h.headers ++ ps }
  else .error .memory

/-- `ci_headers_reset` -/
def reset (h : HeaderBuf) : HeaderBuf := { h with packed := false, headers := [], bufused := 0 }

/-- `ci_headers_add`: the pointer to the new header or a null pointer. -/
def add (a : Allocator) (h : HeaderBuf) (line : List UInt8) : Except Fault (Option Nat × HeaderBuf) :=
  if h.packed then .ok (none, h)
  else
    match h.checkSpace a 1 (line.length + 2) with
    | (false, h) => .ok (none, h)
    | (true, h) => do
        let h ← h.assertTerminate
        let h ← h.openEnd
        let pos := h.bufused
        let h ← h.store pos (line ++ [if h.packed then 13 else 0, 10, 13, 10])
        let h := { h with bufused := pos + line.length + 4 }
        assert (h.bufused ≤ h.buf.length)
        let h ← h.pushHeaders [h.addr + pos]
        return (some (h.addr + pos), h)

/-- `ci_headers_addheaders` with another list. -/
def addHeaders (a : Allocator) (h hs : HeaderBuf) : Except Fault (Bool × HeaderBuf) :=
  if h.packed || hs.packed then .ok (false, h)
  else
    match h.checkSpace a hs.headers.length hs.bufused with
    | (false, h) => .ok (false, h)
    | (true, h) => do
        let h ← h.assertTerminate
        let h ← h.openEnd
        let pos := h.bufused
        let h ← h.store pos (hs.buf.take hs.bufused)
        let h := { h with bufused := pos + hs.bufused }
        let h ← h.pushHeaders (hs.headers.map (fun p => h.addr + pos + (p - hs.addr)))
        let h ← h.assertTerminate
        return (true, h)

/-- `ci_headers_addheaders` of a list to itself. The loop over the headers runs to `used` of the
list that it appends to, so it does not end before it leaves the index. -/
def addSelf (a : Allocator) (h : HeaderBuf) : Except Fault (Bool × HeaderBuf) :=
  if h.packed then .ok (false, h)
  else
    match h.checkSpace a h.headers.length h.bufused with
    | (false, h) => .ok (false, h)
    | (true, h) => do
        let h ← h.assertTerminate
        let h ← h.openEnd
        if h.headers ≠ [] then .error .memory
        else
          let h ← h.assertTerminate
          return (true, h)

/-- The loop of `ci_headers_remove` over the index: the first header with the name. -/
def findHeader (h : HeaderBuf) (name : List UInt8) : List Nat → Nat → Except Fault (Option Nat)
  | [], _ => .ok none
  | p :: ps, i =>
    let pos := p - h.addr
    if h.bufused < pos + name.length then .ok none
    else do
      let b ← h.byte (pos + name.length)
      if b ≠ 58 then h.findHeader name ps (i + 1)
      else if strncasecmp (h.buf.drop pos) name name.length then return some i
      else h.findHeader name ps (i + 1)

/-- The last header is taken away. -/
def removeLast (h : HeaderBuf) (p : Nat) : Except Fault HeaderBuf := do
  let pos := p - h.addr
  let h ← h.store pos [13, 10]
  let h := { h with bufused := pos + 2 }
  assert (h.bufused ≤ h.buf.length)
  return { h with headers := h.headers.dropLast }

/-- The header at `p` is taken away, which is entry `i` of the index; the next one is at `q`. -/
def removeInner (h : HeaderBuf) (i p q : Nat) : Except Fault HeaderBuf := do
  let curHeadSize := q - p
  let restLen := h.bufused - (p - h.addr) - curHeadSize
  assert (0 < restLen)
  let h ← h.store (p - h.addr) ((h.buf.drop (q - h.addr)).take restLen)
  return { h with
    bufused := h.bufused - curHeadSize
    headers := h.headers.take i ++ (h.headers.drop (i + 1)).map (· - curHeadSize) }

/-- Entry `i` of the index is taken away. -/
def removeAt (h : HeaderBuf) (i : Nat) : Except Fault HeaderBuf := do
  let h ← match h.headers.drop i with
    | [p] => h.removeLast p
    | p :: q :: _ => h.removeInner i p q
    | [] => .error .memory
  h.assertTerminate

/-- `ci_headers_remove` -/
def remove (a : Allocator) (h : HeaderBuf) (name : List UInt8) : Except Fault (Bool × HeaderBuf) :=
  if h.packed then .ok (false, h)
  else do
    let h := (h.checkSpace a 0 0).2
    let h ← h.assertTerminate
    match ← h.findHeader name h.headers 0 with
    | none => return (false, h)
    | some i =>
      let h ← h.removeAt i
      return (true, h)

/-! ## Packing and copying -/

/-- The line end in front of a header is restored. -/
def packEntry (h : HeaderBuf) (p : Nat) : Except Fault HeaderBuf := do
  let pos := p - h.addr
  assert (pos < h.bufused)
  assert (1 ≤ pos)
  let b ← h.byte (pos - 1)
  let h ← if b = 0 then h.store (pos - 1) [10] else .ok h
  if 2 ≤ pos then
    let c ← h.byte (pos - 2)
    if c = 0 then h.store (pos - 2) [13] else .ok h
  else return h

/-- `ci_headers_pack` -/
def pack (a : Allocator) (h : HeaderBuf) : Except Fault HeaderBuf :=
  if h.packed then .ok h
  else if h.bufused = 0 ∨ h.headers = [] then .ok h
  else do
    let h := (h.checkSpace a 0 0).2
    let h ← h.assertTerminate
    let h ← h.headers.tail.foldlM packEntry h
    assert (4 ≤ h.bufused)
    assert ((h.buf.take h.bufused).drop (h.bufused - 3) = [10, 13, 10])
    let h ← h.store (h.bufused - 4) [13]
    return { h with packed := true }

/-- `ci_headers_clone`. When the new list cannot be allocated it is used all the same. -/
def clone (a : Allocator) (h : HeaderBuf) : Except Fault HeaderBuf := do
  match ← create2 a h.size h.buf.length with
  | none => .error .memory
  | some c =>
    let c ← c.store 0 (h.buf.take h.bufused)
    return { c with
      bufused := h.bufused
      packed := h.packed
      headers := h.headers.map (fun p => c.addr + (p - h.addr)) }

end HeaderBuf

end CIcap
