import CIcap.Lib.Machine
import CIcap.Request.Respond

/-! # The server as a machine

`do_request` of `request.c` from the first byte of the head to the end of the response. A state
`Run` holds the point reached in the code (`Pc`, with the local variables that are alive
there), the request, the connection and the state of the service; `step` goes on to the next
point at which the server waits for the connection, calls the service or goes round a loop.
Everything the environment decides in a step (which direction of the connection is ready, how
many bytes a read or a write moves, failures and timeouts) is its input `Tick`, so a schedule
is a list of ticks and a statement about every schedule is one about every list.
-/

namespace CIcap

open CText

variable {σ : Type}

/-! ## States -/

/-- What the environment decides in a step: which directions are ready (`none` when the wait
times out, fails or the server is going down), how many bytes a read delivers and a write
takes (`none` for an error), and the time. -/
structure Tick where
  wait : Option (Bool × Bool) := some (true, true)
  read : Option Nat := none
  write : Option Nat := none
  date : List UInt8 := []

/-- The connection: the bytes the client sends without waiting for an answer, those it sends
after `100 Continue`, and what has been written to it. -/
structure Net where
  input : List UInt8 := []
  withheld : List UInt8 := []
  wire : List Seg := []

/-- What has happened, for the statements about the machine: the body bytes `service_io` has
taken and produced, and whether the service has asked for the whole body. -/
structure Hist where
  accepted : List UInt8 := []
  produced : List UInt8 := []
  wholeBody : Bool := false

/-- The results `CI_OK` and `CI_ERROR`. -/
inductive Ret where
  | ok | error
  deriving DecidableEq

/-- The local variables of `get_send_body`. `wchunkdata` is the data the pointer points to;
of `rchunkdata` only matters whether it has been set. -/
structure Gsb where
  parseOnly : Bool
  waitRead : Bool
  waitWrite : Bool := false
  wchunkdata : Option (List UInt8) := none
  rchunkdata : Bool := false
  serviceEof : Bool := false
  hasFormatedData : Bool := false
  parseChunkRet : Option ChunkRet := none
  lockStatus : Bool := true

/-- Points in the code. -/
inductive Pc where
  /-- the beginning of `ci_read_icap_header` -/
  | start
  /-- its loop, with the bytes read and how far back the search begins -/
  | readHeader (buf : List UInt8) (back : Nat)
  /-- the loop of `parse_encaps_headers` at an entity -/
  | encaps (i : Nat)
  /-- the loop of `read_encaps_header`, with the bytes read and the number still missing -/
  | readEncaps (i : Nat) (buf : List UInt8) (remains : Nat)
  /-- the loop of `options_responce` -/
  | sendOptions
  /-- the read of `read_preview_data` -/
  | previewRead
  /-- the inner loop of `read_preview_data` -/
  | previewParse
  /-- the rest of `do_request_preview`; the preview may be the whole body -/
  | preview (eof : Bool)
  | fakePreview
  /-- the beginning of a round of `get_send_body` -/
  | gsbTop (l : Gsb)
  /-- its inner loop -/
  | gsbInner (l : Gsb)
  | endOfData
  /-- the loop of `send_remaining_response` -/
  | sendRest
  | finished (ret : Ret)
  /-- outside what the code defines: a bad memory access or an endless loop -/
  | fault

/-- The state of the machine. -/
structure Run (σ : Type) where
  pc : Pc := .start
  req : Req σ := {}
  net : Net := {}
  svc : σ
  hist : Hist := {}

variable (cfg : Config σ)

def Net.put (n : Net) (s : Seg) : Net := { n with wire := Pieces.put n.wire s }

/-- What a service may return: no more bytes than there is room for, and no more bytes taken
than were offered. -/
def IoRes.clip (a : IoArgs) : IoRes → IoRes
  | .ok (.data out) took => .ok (.data (out.take a.room)) (took.map (min (a.wdata.getD []).length))
  | .ok read took => .ok read (took.map (min (a.wdata.getD []).length))
  | .error => .error

def IoRead.bytes : IoRead → List UInt8
  | .data out => out
  | _ => []

namespace Run

/-! ## The connection -/

/-- `wait_for_data` for the given directions. -/
def waitFor (t : Tick) (read write : Bool) : Option (Bool × Bool) :=
  match t.wait with
  | none => none
  | some (r, w) => if (r && read) || (w && write) then some (r && read, w && write) else none

/-- `ci_connection_write`: all bytes are written, or some before a failure. -/
def write (c : Run σ) (t : Tick) (src : BlockSrc) (out : List UInt8) : Bool × Run σ :=
  (t.write.isSome && decide (out.length ≤ t.write.getD 0),
    { c with net := c.net.put ⟨src, 0, out.take (t.write.getD 0)⟩ })

/-- `send_current_block_data`: `false` for `CI_ERROR`. -/
def sendCurrentBlock (c : Run σ) (t : Tick) : Bool × Run σ :=
  if c.req.block.bytes = [] then (true, c)
  else
    match t.write with
    | none => (false, c)
    | some n =>
      (true, { c with
        net := c.net.put (c.req.block.upTo n)
        req := { c.req with block := c.req.block.after n } })

/-- `ci_connection_read_nonblock` of at most `room` bytes; `none` for an error. -/
def readNonblock (c : Run σ) (t : Tick) (room : Nat) : Option (List UInt8 × Run σ) :=
  t.read.map fun k =>
    (c.net.input.take (min k room),
      { c with net := { c.net with input := c.net.input.drop (min k room) } })

/-- `net_data_read`: `false` for `CI_ERROR`. -/
def netDataRead (c : Run σ) (t : Tick) : Bool × Run σ :=
  if bufSize ≤ c.req.rd.pstrblockRead.length then (false, c)
  else
    match c.readNonblock t (netReadRoom c.req.rd) with
    | none => (false, c)
    | some (got, c) =>
      match CIcap.netDataRead c.req.rd got with
      | none => (false, c)
      | some rd => (true, { c with req := { c.req with rd := rd } })

/-! ## The service -/

/-- A handler of the service has answered. -/
def handled {α : Type} (c : Run σ) (res : α × σ × List ApiCall) : α × Run σ :=
  (res.1, { c with svc := res.2.1, req := c.req.apis res.2.2 })

/-- `mod_null_io` -/
def modNullIo (a : IoArgs) : IoRes :=
  .ok (if a.iseof then .eof else .data []) (some (a.wdata.getD []).length)

/-- The part of `mod_echo_io` that takes data. -/
def echoWrite (ring : RingBuf) (wdata : Option (List UInt8)) : RingBuf × Nat :=
  match wdata with
  | some data => ring.write data
  | none => (ring, 0)

/-- `mod_echo_io` on the ring buffer: the data go into it, and what is in it comes out. -/
def modEchoIo (ring : RingBuf) (eofReceived : Bool) (a : IoArgs) : IoRes × RingBuf :=
  let (ring, took) := echoWrite ring a.wdata
  if a.rbuf then
    let (ring, out) := ring.read a.room
    (.ok (if out = [] ∧ eofReceived then .eof else .data out) (some took), ring)
  else (.ok (.data []) (some took), ring)

/-- The call of `service_io`. -/
def serviceIo (c : Run σ) (parseOnly : Bool) (a : IoArgs) : IoRes × Run σ :=
  if parseOnly then (modNullIo a, c)
  else
    match c.req.echoBody with
    | some ring =>
      let (res, ring) := modEchoIo ring c.req.rd.eofReceived a
      (res, { c with req := { c.req with echoBody := some ring } })
    | none =>
      match c.req.mod.bind (·.serviceIo) with
      | none => (.error, c)
      | some io =>
        let (res, c) := c.handled (io c.svc c.req.view a)
        (res.clip a, c)

/-- There is a `service_io` to call. -/
def hasServiceIo (c : Run σ) : Bool :=
  c.req.echoBody.isSome || (c.req.mod.bind (·.serviceIo)).isSome

/-! ## Ends -/

/-- The end of `do_request`. -/
def finish (c : Run σ) (ret : Ret) : Run σ := { c with pc := .finished ret }

def noKeepalive (c : Run σ) : Run σ := { c with req := { c.req with keepalive := false } }

/-- The end with an error, the connection to be closed. -/
def close (c : Run σ) : Run σ := c.noKeepalive.finish .error

/-- `ec_responce`: whether it could be written. -/
def respond (c : Run σ) (t : Tick) (ec : Ec) : Bool × Run σ :=
  let c := { c with req := ecResponce cfg c.req ec }
  c.write t (.head c.req.responseHeader) c.req.responseHeader.buf

/-- An error response, the connection to be closed. -/
def reject (c : Run σ) (t : Tick) (ec : Ec) : Run σ :=
  (c.noKeepalive.respond cfg t ec).2.finish .error

/-- `return_code` is set. -/
def setCode (c : Run σ) (ec : Ec) : Run σ := { c with req := { c.req with returnCode := some ec } }

/-! ## The body of the request -/

/-- The entry of `get_send_body`. -/
def enterGetSendBody (c : Run σ) (parseOnly : Bool) : Run σ :=
  { c with
    req := { c.req with status := .nothing }
    pc := .gsbTop { parseOnly := parseOnly, waitRead := decide (c.req.rd.pstrblockRead = []) } }

/-- `do_request` behind the preview, whose result is `CI_EOF` or `CI_OK`. -/
def afterPreview (c : Run σ) (t : Tick) (eof : Bool) : Run σ :=
  let c := if eof then c.setCode .ec200 else c
  match c.req.returnCode with
  | some .ec204 => c.finish .ok
  | some .ec100 =>
    if c.req.hasbody ∧ !eof then
      -- we have to respond with "200 OK"
      let c := c.setCode .ec200
      if c.hasServiceIo then c.enterGetSendBody false else c.close
    else { c with pc := .endOfData }
  | some .ec200 | some .ec206 => { c with pc := .endOfData }
  | _ => (c.respond cfg t .ec500).2.finish .error

/-- `get_send_body` fails. -/
def failGetSendBody (c : Run σ) (parseOnly : Bool) : Run σ :=
  if parseOnly then c.finish .error else c.close

/-- The loop of `get_send_body` is left: it has succeeded when the end of the body has been
received. -/
def leaveGetSendBody (c : Run σ) (t : Tick) (parseOnly : Bool) : Run σ :=
  if c.req.rd.eofReceived then
    if parseOnly then (c.setCode .ec204).afterPreview cfg t false
    else { c with pc := .endOfData }
  else c.failGetSendBody parseOnly

/-- The connection at the beginning of a round of `get_send_body`. -/
def gsbNet (c : Run σ) (t : Tick) (read write : Bool) : Bool × Run σ :=
  let (ok, c) := if read then c.netDataRead t else (true, c)
  if ok ∧ write then
    let c :=
      if !c.req.dataLocked ∧ c.req.status = .nothing then
        { c with req := (updateSendStatus cfg c.req).2 }
      else c
    c.sendCurrentBlock t
  else (ok, c)

/-- A round of `get_send_body` after the connection: the next block of the response. -/
def gsbUpdate (c : Run σ) (l : Gsb) : Run σ :=
  let (ret, req) :=
    if !c.req.dataLocked ∧ c.req.block.bytes = [] then updateSendStatus cfg c.req
    else (.ok, c.req)
  let c := { c with req := req }
  if ret = .error then c.failGetSendBody l.parseOnly
  else
    { c with pc := .gsbInner { l with
      lockStatus := c.req.dataLocked
      hasFormatedData := decide (c.req.block.bytes ≠ [])
      parseChunkRet := none } }

/-- The beginning of a round of `get_send_body`. -/
def gsbTop (c : Run σ) (t : Tick) (l : Gsb) : Run σ :=
  if l.waitRead || l.waitWrite then
    match waitFor t l.waitRead l.waitWrite with
    | none => c.leaveGetSendBody cfg t l.parseOnly
    | some (r, w) =>
      match c.gsbNet cfg t r w with
      | (false, c) => c.failGetSendBody l.parseOnly
      | (true, c) => c.gsbUpdate cfg l
  else c.gsbUpdate cfg l

/-- The chunk parser is called when there are bytes and nothing is pending. -/
def gsbParse (c : Run σ) (l : Gsb) : ChunkRet × Run σ × Gsb :=
  if c.req.rd.pstrblockRead ≠ [] ∧ c.req.rd.writeToModulePending = 0 then
    let (ret, w, rd) := parseChunkData c.req.rd
    let rd := if ret = .eof then { rd with eofReceived := true } else rd
    (ret, { c with req := { c.req with rd := rd } },
      { l with wchunkdata := w, parseChunkRet := some ret })
  else (.ok, c, l)

/-- The room for body data in the chunk that is being filled. -/
def gsbRoom (c : Run σ) (l : Gsb) : Nat :=
  if c.req.status = .body ∧ l.serviceEof = false ∧ l.hasFormatedData = false then
    maxChunkSize - c.req.block.bytes.length
  else 0

/-- The data offered to the service: the pointer with the number of pending bytes. -/
def gsbOffer (c : Run σ) (l : Gsb) : Option (List UInt8) :=
  if c.req.rd.writeToModulePending = 0 then l.wchunkdata.map (fun _ => []) else l.wchunkdata

/-- `rchunkdata` points into the buffer once there was an empty chunk to fill. -/
def gsbSetRchunk (c : Run σ) (l : Gsb) : Gsb :=
  { l with rchunkdata := l.rchunkdata ||
      decide (c.req.status = .body ∧ l.serviceEof = false ∧ c.req.block.bytes = []) }

/-- The service has taken `n` bytes and given body data or reported the end. -/
def gsbBook (c : Run σ) (l : Gsb) (read : IoRead) (n : Nat) : Run σ × Gsb :=
  ({ c with
      req := { c.req with
        rd := { c.req.rd with writeToModulePending := c.req.rd.writeToModulePending - n }
        block :=
          if read.bytes = [] then c.req.block else ⟨.raw, 0, c.req.block.bytes ++ read.bytes⟩ }
      hist := { c.hist with
        accepted := c.hist.accepted ++ (l.wchunkdata.getD []).take n
        produced := c.hist.produced ++ read.bytes } },
    { l with
      wchunkdata := l.wchunkdata.map (·.drop n)
      serviceEof := l.serviceEof || decide (read = .eof) })

/-- The data read become a chunk. Where a block is being sent nothing is formatted. -/
def gsbFormat (c : Run σ) (l : Gsb) : Run σ :=
  if c.req.status = .body ∧ l.hasFormatedData = false then
    { c with req := formatBody c.req (decide (c.req.block.bytes = []) && l.serviceEof) }
  else c

/-- The end of a round of `get_send_body`: the loop goes on or is left. -/
def gsbTail (c : Run σ) (t : Tick) (l : Gsb) : Run σ :=
  let idle := decide (c.req.rd.writeToModulePending = 0)
  let c := c.gsbFormat l
  let l := { l with
    waitRead := idle
    wchunkdata := if idle then none else l.wchunkdata
    waitWrite := decide (c.req.block.bytes ≠ []) }
  if (!c.req.rd.eofReceived || !idle) &&
      (l.waitRead || l.waitWrite || l.lockStatus != c.req.dataLocked) then
    { c with pc := .gsbTop l }
  else c.leaveGetSendBody cfg t l.parseOnly

/-- The inner loop of `get_send_body` is repeated or left; `moved` tells whether the service
has taken or given bytes, `room` what it was offered. -/
def gsbRepeat (c : Run σ) (t : Tick) (l : Gsb) (moved : Bool) (room : Nat) : Run σ :=
  let mayHaveClientData := decide (c.req.rd.pstrblockRead ≠ []) &&
    decide (l.parseChunkRet ≠ some .needsMore) && decide (l.parseChunkRet ≠ some .eof)
  if moved && (mayHaveClientData || decide (0 < room)) then { c with pc := .gsbInner l }
  else c.gsbTail cfg t l

/-- The call of the service in a round of the inner loop of `get_send_body`. -/
def gsbCall (c : Run σ) (t : Tick) (l : Gsb) : Run σ :=
  let room := c.gsbRoom l
  let wdata := c.gsbOffer l
  let l := c.gsbSetRchunk l
  if 0 < (wdata.getD []).length ∨ 0 < room ∨ l.parseChunkRet = some .eof then
    match c.serviceIo l.parseOnly ⟨l.rchunkdata, room, wdata, c.req.rd.eofReceived⟩ with
    | (.ok read (some n), c) =>
      if read = .bad then c.failGetSendBody l.parseOnly
      else
        let (c, l) := c.gsbBook l read n
        c.gsbRepeat cfg t l (decide (n ≠ 0) || decide (read.bytes ≠ [])) room
    | (_, c) => c.failGetSendBody l.parseOnly
  else c.gsbRepeat cfg t l false room

/-- A round of the inner loop of `get_send_body`. -/
def gsbInner (c : Run σ) (t : Tick) (l : Gsb) : Run σ :=
  match c.gsbParse l with
  | (.error, c, l) => c.failGetSendBody l.parseOnly
  | (.wild, c, _) => { c with pc := .fault }
  | (_, c, l) => c.gsbCall cfg t l

end Run

end CIcap
