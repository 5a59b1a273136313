import CIcap.Client.RequestLine
import CIcap.Header.Buffer
import CIcap.Request.Step

/-! # The client library

`ci_client_icapfilter_nonblocking` of `client.c` with the functions it calls: the headers and
the preview are prepared and sent, the rest of the body is sent in chunks while the response is
read. The request object is the one of the server; the fields that only the client uses are in
`Client`, together with the connection, the data source and the writer that the caller hands
over. What the connection does in a call is its input `ClientCall`.
-/

namespace CIcap

open CText

/-! ## The callbacks -/

/-- What a read of the data source may find: some data, of which a read takes no more than it
asks for, or a failure. No data are a read that returns `0`. Behind the last item the source
returns `CI_EOF`. -/
inductive SourceItem where
  | data (bytes : List UInt8)
  | error
  deriving DecidableEq

/-- A data source with the pieces it is going to return. -/
abbrev Source : Type := List SourceItem

/-- The results of `source_read`. -/
inductive SourceRet where
  | data (bytes : List UInt8)
  | eof
  | error
  deriving DecidableEq

/-- `source_read` for at most `len` bytes. -/
def Source.read : Source → Nat → SourceRet × Source
  | [], _ => (.eof, [])
  | .error :: src, _ => (.error, src)
  | .data bs :: src, len =>
    if len < bs.length then (.data (bs.take len), .data (bs.drop len) :: src)
    else (.data bs, src)

def SourceItem.bytes : SourceItem → List UInt8
  | data bs => bs
  | error => []

/-- The data that a source has still to return. -/
def Source.stream (src : Source) : List UInt8 := src.flatMap SourceItem.bytes

/-- The answers of the writer `dest_write` to come: how many bytes it takes at most, or `none`
for a failure. Behind the last one it takes all it is offered. -/
abbrev Writer : Type := List (Option Nat)

/-- The loop over `dest_write`: `pending` bytes are to be written. The pointer `buf` does not
move on, so every call is offered the front of the data. The result is the bytes the writer has
taken and the number that is still pending, with `none` for a failure. -/
def destWrite (buf : List UInt8) : Writer → Nat → List UInt8 → Option Unit × Writer × Nat × List UInt8
  | writer, 0, taken => (some (), writer, 0, taken)
  | [], pending, taken => (some (), [], 0, taken ++ buf.take pending)
  | none :: writer, pending, taken => (none, writer, pending, taken)
  | some k :: writer, pending, taken =>
    let n := min k pending
    destWrite buf writer (pending - n) (taken ++ buf.take n)

/-! ## States -/

/-- `enum CLIENT_STATUS`; `CLIENT_SEND_HEADERS` and `CLIENT_PROCESS_DATA` are the first of their
group. -/
inductive ClientStatus where
  | init
  | writeNothing | writeIcapHeaders | writeReqHeaders | writeResHeaders | writePreviewInfo
  | writePreview | writeEofInfo | sendHeadersFinished
  | readPreviewResponse
  | getNothing | getHeaders | getBody | getTrailers | endOfResponse
  deriving DecidableEq

/-- What a call of the library may return: one or more directions to wait for, `0`,
`CI_ERROR`; and `fault` where the code leaves the memory it has. -/
inductive FilterRet where
  | wants (readIcap writeIcap readUser writeUser : Bool)
  | done
  | error
  | fault
  deriving DecidableEq

/-- The request object with the connection and the callbacks. -/
structure Client where
  req : Req Unit
  status : ClientStatus := .init
  eofSent : Bool := false
  returnCode : Int := 0
  /-- the part of a header block that has been read, in the buffer of its list -/
  head : List UInt8 := []
  /-- the size of the buffer for the header block of the response -/
  headRoom : Nat := headsBufSize
  /-- what has been written to the connection -/
  wire : List Seg := []
  /-- what the server sends -/
  input : List UInt8 := []
  source : Option Source := none
  writer : Writer := []
  /-- the bytes the writer has taken -/
  accepted : List UInt8 := []
  /-- the server has asked for the rest of the body -/
  continued : Bool := false
  ret : FilterRet := .wants false false false false

/-- The arguments that stay the same from call to call: the HTTP headers, the user agent and
what the memory of the preview buffer holds when it is allocated. -/
structure FilterArgs where
  reqHeaders : Option (List (List UInt8)) := none
  respHeaders : Option (List (List UInt8)) := none
  userAgent : Option (List UInt8) := none
  previewMem : List UInt8 := []

/-- One call: the directions that are ready, how many bytes the writes take and the reads
deliver, `none` for an error. There are at most two writes and two reads in a call. -/
structure ClientCall where
  ioWrite : Bool := false
  ioRead : Bool := false
  headWrite : Option Nat := none
  dataWrite : Option Nat := none
  previewRead : Option Nat := none
  dataRead : Option Nat := none

/-- The results of the functions of the client library. -/
inductive ClientRet where
  | ok
  | needsMore
  | error
  | noContent
  | fault
  deriving DecidableEq

/-! ## Preparing the request -/

/-- `CI_DEFAULT_USER_AGENT` -/
def defaultUserAgent : List UInt8 := bytes "C-ICAP-Client-Library/0.6.4"

/-- The `User-Agent` header, where there is an agent. -/
def userAgentLine (agent : Option (List UInt8)) : List (List UInt8) :=
  match agent with
  | some [] => []
  | some a => [snprintf 256 (bytes "User-Agent: " ++ a)]
  | none => [snprintf 256 (bytes "User-Agent: " ++ defaultUserAgent)]

/-- The `Allow` header, where something is allowed. -/
def allowLine (allow204 allow206 allowTrailers : Bool) : List (List UInt8) :=
  if allow204 || allow206 || allowTrailers then
    [bytes "Allow: " ++ (if allow204 then bytes "204" else []) ++
      (if allow206 && allow204 then bytes ", " else []) ++
      (if allow206 then bytes "206" else []) ++
      (if allowTrailers && (allow206 || allow204) then bytes ", " else []) ++
      (if allowTrailers then bytes "trailers" else [])]
  else []

/-- `client_create_request`: the head of the request, or `none` without a method. -/
def clientCreateRequest (agent : Option (List UInt8)) (req : Req Unit) : Option (Req Unit) :=
  req.type.map fun type =>
    let head := req.requestHeader.addAll
      ([requestLine type req.reqServer req.service,
          snprintf 256 (bytes "Host: " ++ req.reqServer)] ++
        userAgentLine agent ++ allowLine req.allow204 req.allow206 req.allowTrailers)
    { req with requestHeader := if req.xheaders.isEmpty then head else head.addHeaders req.xheaders }

/-- `client_build_headers` -/
def clientBuildHeaders (req : Req Unit) (hasReqhdr hasReshdr hasBody : Bool) : Req Unit :=
  req.createEntities
    ((if hasReqhdr then [.reqHdr] else []) ++ (if hasReshdr then [.resHdr] else []) ++
      [if hasBody then (if req.type = some .respmod then .resBody else .reqBody) else .nullBody])

/-- The loop of `prepare_headers` over the source, with `remains` bytes of the preview to come:
the source, the memory of the preview buffer, the number of bytes that are still missing and
whether the end was reached, or `none` for an error. Every read goes to the beginning of the
buffer. A round reads a byte or is the last one, so `remains` is enough fuel. -/
def previewLoop : Nat → Source → List UInt8 → Nat → Source × Option (List UInt8 × Nat × Bool)
  | 0, src, mem, remains => (src, some (mem, remains, false))
  | fuel + 1, src, mem, remains =>
    if remains = 0 then (src, some (mem, 0, false))
    else
      match src.read remains with
      | (.error, src) => (src, none)
      | (.eof, src) => (src, some (mem, remains, true))
      | (.data bs, src) =>
        if bs = [] then (src, some (mem, remains, true))
        else previewLoop fuel src (bs ++ mem.drop bs.length) (remains - bs.length)

/-- The preview is read from the source. -/
def readPreview (args : FilterArgs) (c : Client) (src : Source) : Option Client :=
  if 0 < c.req.preview then
    let n := c.req.preview.toNat
    match previewLoop n src args.previewMem n with
    | (_, none) => none
    | (src, some (mem, remains, preEof)) =>
      let used := n - remains
      some { c with
        source := some src
        eofSent := c.eofSent || preEof
        req := { c.req with
          preview := used
          previewData := { data := mem.take used, size := bufferSize n } } }
  else some c

def preparePreview (args : FilterArgs) (c : Client) : Option Client :=
  match c.source with
  | none => some { c with req := { c.req with preview := -1 } }
  | some src => readPreview args c src

/-- `prepare_headers`; `none` for an error. -/
def prepareHeaders (args : FilterArgs) (c : Client) : Option Client :=
  match clientCreateRequest args.userAgent c.req with
  | none => none
  | some req =>
    (preparePreview args { c with req := req }).map fun c =>
      let req := clientBuildHeaders c.req args.reqHeaders.isSome args.respHeaders.isSome
        c.source.isSome
      let req := (args.reqHeaders.getD []).foldl Req.httpRequestAddHeader req
      let req := (args.respHeaders.getD []).foldl Req.httpResponseAddHeader req
      { c with req := req, status := .writeNothing }

/-! ## Sending the headers -/

def previewHead (req : Req Unit) : Headers :=
  if 0 ≤ req.preview then
    req.requestHeader.add (bytes "Preview: " ++ natText 10 req.preview.toNat)
  else req.requestHeader

/-- `ci_request_pack` -/
def requestPack (req : Req Unit) : Req Unit :=
  let es := placeEntities req.entities
  { req with
    packed := true
    entities := packEntities es
    requestHeader := ((previewHead req).add (encapsulatedLine es)).pack }

/-- `get_headers_from_entities`, with the position of the entity. -/
def getHeadersFromEntities (es : List Entity) (type : EntityType) : Option (Nat × Headers) :=
  (es.zipIdx.find? (fun p => p.1.type = type)).map fun p => (p.2, p.1.headers)

namespace Client

def setBlock (c : Client) (status : ClientStatus) (src : BlockSrc) (out : List UInt8) : Client :=
  { c with status := status, req := { c.req with block := ⟨src, 0, out⟩ } }

/-- A write of the current block that takes up to `n` bytes. -/
def writeBlock (c : Client) (n : Nat) : Client :=
  { c with
    wire := Pieces.put c.wire (c.req.block.upTo n)
    req := { c.req with block := c.req.block.after n } }

def previewEnd (hasEof : Bool) : List UInt8 :=
  bytes "0" ++ (if hasEof then bytes "; ieof" else []) ++ crlf ++ crlf

/-- `client_send_request_headers` when the response headers have been written. -/
def resHeadersSent (c : Client) (hasEof : Bool) : ClientRet × Client :=
  if 0 < c.req.preview ∧ c.req.previewData.data ≠ [] then
    (.needsMore, c.setBlock .writePreviewInfo .chunk (natText 16 c.req.preview.toNat ++ crlf))
  else if c.req.preview = 0 then
    (.needsMore, c.setBlock .writeEofInfo .last (previewEnd hasEof))
  else (.ok, { c with status := .getNothing })

/-- `client_send_request_headers` when the request headers have been written. -/
def reqHeadersSent (c : Client) (hasEof : Bool) : ClientRet × Client :=
  match getHeadersFromEntities c.req.entities .resHdr with
  | some (i, h) => (.needsMore, c.setBlock .writeResHeaders (.entity i) h.buf)
  | none => { c with status := .writeResHeaders }.resHeadersSent hasEof

/-- `client_send_request_headers` when the ICAP head has been written. -/
def icapHeadersSent (c : Client) (hasEof : Bool) : ClientRet × Client :=
  match getHeadersFromEntities c.req.entities .reqHdr with
  | some (i, h) => (.needsMore, c.setBlock .writeReqHeaders (.entity i) h.buf)
  | none => { c with status := .writeReqHeaders }.reqHeadersSent hasEof

/-- `client_send_request_headers` when the current block has been written. -/
def blockSent (c : Client) (hasEof : Bool) : ClientRet × Client :=
  match c.status with
  | .writeIcapHeaders => c.icapHeadersSent hasEof
  | .writeReqHeaders => c.reqHeadersSent hasEof
  | .writeResHeaders => c.resHeadersSent hasEof
  | .writePreviewInfo => (.needsMore, c.setBlock .writePreview .raw c.req.previewData.data)
  | .writePreview => (.needsMore, c.setBlock .writeEofInfo .last (crlf ++ previewEnd hasEof))
  | .writeEofInfo => (.ok, { c with status := .getNothing, eofSent := c.eofSent || hasEof })
  | _ => (.ok, c)

def startHeaders (c : Client) : Client :=
  if c.status = .writeNothing then
    let req := requestPack c.req
    { c with req := req }.setBlock .writeIcapHeaders (.head req.requestHeader) req.requestHeader.buf
  else c

/-- `client_send_request_headers` -/
def sendRequestHeaders (c : Client) (hasEof : Bool) (write : Option Nat) : ClientRet × Client :=
  let c := c.startHeaders
  if c.req.block.bytes = [] then (.ok, c)
  else
    match write with
    | none => (.error, c)
    | some n =>
      let c := c.writeBlock n
      if c.req.block.bytes ≠ [] then (.needsMore, c) else c.blockSent hasEof

/-! ## Reading the response -/

/-- `net_data_read`; `none` for an error. -/
def netDataRead (c : Client) (read : Option Nat) : Option Client :=
  match read with
  | none => none
  | some k =>
    let got := c.input.take (min k (netReadRoom c.req.rd))
    (CIcap.netDataRead c.req.rd got).map fun rd =>
      { c with req := { c.req with rd := rd }, input := c.input.drop got.length }

/-- `n` bytes go from the read buffer to the header block. -/
def takeHead (c : Client) (n : Nat) : Client :=
  { c with
    head := c.head ++ c.req.rd.pstrblockRead.take n
    req := { c.req with
      rd := { c.req.rd with pstrblockRead := c.req.rd.pstrblockRead.drop n } } }

/-- `client_parse_icap_header`: the last line end of the block is dropped. -/
def parseIcapHeader (c : Client) : ClientRet × Client :=
  let block := c.req.rd.pstrblockRead
  if block.length < 4 then (.needsMore, c)
  else
    match findEoh block with
    | some i =>
      let c := c.takeHead (i + 4)
      (.ok, { c with head := c.head.take (c.head.length - 2) })
    | none => (.needsMore, c.takeHead (block.length - 3))

/-- `client_parse_encaps_header` for a block of `size` bytes. -/
def parseEncapsHeader (c : Client) (size : Int) : ClientRet × Client :=
  let remains := size - c.head.length
  if remains < 0 then (.error, c)
  else if remains = 0 then (.ok, c)
  else
    let n := min remains.toNat c.req.rd.pstrblockRead.length
    if c.headRoom < c.head.length + n then (.fault, c)
    else
      let c := c.takeHead n
      if (c.head.length : Int) < size then (.needsMore, c)
      else if c.head.length < 4 then (.fault, c)
      else if crlf ++ crlf <:+ c.head then
        (.ok, { c with head := c.head.take (c.head.length - 2) })
      else (.error, c)

/-- A conversion `%d` of `sscanf`, with the greatest number of characters it takes. -/
def scanInt (width : Nat) (s : List UInt8) : Option (Int × List UInt8) :=
  let s := s.dropWhile isSpace
  let t := (takeSign s).2
  let digits := (t.take (width - (s.length - t.length))).takeWhile (fun b => (digitVal 10 b).isSome)
  if digits = [] then none
  else
    let n : Int := digitsValue 10 digits
    some (if (takeSign s).1 then -n else n, t.drop digits.length)

/-- `sscanf(buf, "ICAP/%d.%d %3d", ...)`: the status code, when all three are there. -/
def scanStatus (buf : List UInt8) : Option Int :=
  if startsWith (bytes "ICAP/") buf then
    match scanInt buf.length (buf.drop 5) with
    | some (_, 46 :: s) => (scanInt s.length s).bind fun p => (scanInt 3 p.2).map Prod.fst
    | _ => none
  else none

/-- The header block is unpacked as the header list of the response. -/
def unpackResponse (c : Client) : Client :=
  { c with
    req := { c.req with
      responseHeader := (c.req.responseHeader.unpack c.head).getD c.req.responseHeader }
    head := [] }

/-- `ci_headers_search` -/
def searchResponse (c : Client) (name : List UInt8) : Option (List UInt8) :=
  c.req.responseHeader.texts.find? (Headers.named name)

/-- `process_encapsulated` on the `Encapsulated` header of the response, where there is one. -/
def responseEntities (c : Client) : Option Client :=
  (c.searchResponse (bytes "Encapsulated")).map fun line =>
    { c with req := (processEncapsulated c.req (line.drop 13)).2 }

/-- The loop over `dest_write` for the data that the chunk parser has handed out. -/
def writeData (c : Client) (data : List UInt8) : Option Unit × Client :=
  let (ok, writer, pending, taken) := destWrite data c.writer c.req.rd.writeToModulePending []
  (ok, { c with
    writer := writer
    accepted := c.accepted ++ taken
    req := { c.req with rd := { c.req.rd with writeToModulePending := pending } } })

def parseTrailers (c : Client) : ClientRet × Client :=
  match c.parseIcapHeader with
  | (.ok, c) =>
    let trailers := c.req.xtrailers.getD {}
    (.ok, { c with
      status := .endOfResponse
      head := []
      req := { c.req with xtrailers := some ((trailers.unpack c.head).getD trailers) } })
  | res => res

/-- The end of the body: the trailers follow where they are announced. -/
def bodyRead (c : Client) : ClientRet × Client :=
  if c.req.allowTrailers ∧ (c.searchResponse (bytes "Trailer")).isSome then
    let c := { c with status := .getTrailers }
    if c.req.rd.pstrblockRead = [] then (.needsMore, c) else c.parseTrailers
  else (.ok, { c with status := .endOfResponse })

/-- The loop of `client_parse_incoming_data` over the body. Every round takes a byte of the
block or is the last one, so its length is enough fuel. -/
def bodyLoop : Nat → Client → ClientRet × Client
  | 0, c => (.fault, c)
  | fuel + 1, c =>
    let (ret, data, rd) := parseChunkData c.req.rd
    let c := { c with req := { c.req with rd := rd } }
    match ret with
    | .error => (.error, c)
    | .wild => (.fault, c)
    | ret =>
      match c.writeData (data.getD []) with
      | (none, c) => (.error, c)
      | (some _, c) =>
        match ret with
        | .eof => c.bodyRead
        | .needsMore => (.needsMore, c)
        | _ => bodyLoop fuel c

def startBody (c : Client) : ClientRet × Client :=
  let c := { c with status := .getBody }
  if c.req.rd.pstrblockRead = [] then (.needsMore, c)
  else bodyLoop (c.req.rd.pstrblockRead.length + 1) c

def headersRead (c : Client) (e body : Entity) (es : List Entity) : ClientRet × Client :=
  let h := (e.headers.unpack c.head).getD e.headers
  let rd := { c.req.rd with currentChunkLen := 0, chunkBytesRead := 0, writeToModulePending := 0 }
  let c := { c with
    head := []
    req := { c.req with entities := { e with headers := h } :: body :: es, rd := rd } }
  if body.type = .nullBody then (.ok, { c with status := .endOfResponse }) else c.startBody

def getHeaders (c : Client) : ClientRet × Client :=
  match c.req.entities with
  | e :: body :: es =>
    match c.parseEncapsHeader (body.start - e.start) with
    | (.ok, c) => c.headersRead e body es
    | res => res
  | _ => (.fault, c)

/-- `ci_headers_setsize` -/
def setSize (c : Client) (size : Int) : Client :=
  if size < c.headRoom then c else { c with headRoom := (size.toNat / headsBufSize + 1) * headsBufSize }

def startEntities (c : Client) : ClientRet × Client :=
  match c.req.entities with
  | [] => (.error, c)
  | [_] => c.startBody
  | e :: body :: _ => ({ c with status := .getHeaders }.setSize (body.start - e.start)).getHeaders

def headRead (c : Client) : ClientRet × Client :=
  match scanStatus c.head with
  | none => (.error, c)
  | some status =>
    let c := { c with returnCode := status }.unpackResponse
    if c.req.allow204 ∧ status = 204 then (.noContent, { c with status := .endOfResponse })
    else
      match c.responseEntities with
      | none => (.error, c)
      | some c => c.startEntities

/-- `client_parse_incoming_data` -/
def parseIncomingData (c : Client) : ClientRet × Client :=
  match c.status with
  | .getNothing =>
    match c.parseIcapHeader with
    | (.ok, c) => c.headRead
    | res => res
  | .getHeaders => c.getHeaders
  | .getBody => bodyLoop (c.req.rd.pstrblockRead.length + 1) c
  | .getTrailers => c.parseTrailers
  | _ => (.ok, c)

/-! ## Sending the body -/

/-- `client_prepere_body_chunk`, when nothing is left to write and the body has not ended. The
flag tells whether the caller has to wait for the source; `none` is an error. -/
def prepereBodyChunk (c : Client) : Option (Bool × Client) :=
  match c.source with
  | none => some (false, c)
  | some src =>
    if c.req.block.bytes ≠ [] ∨ c.eofSent then some (false, c)
    else
      match src.read maxChunkSize with
      | (.error, _) => none
      | (.eof, src) =>
        some (false, { c with source := some src, eofSent := true }.setBlock c.status .last
          (bytes "0" ++ crlf ++ crlf))
      | (.data [], src) => some (true, { c with source := some src })
      | (.data bs, src) =>
        some (false, { c with source := some src }.setBlock c.status .chunk (chunkBytes bs))

/-- The write side of `ci_client_send_and_get_data`; `none` for an error. -/
def sendData (c : Client) (call : ClientCall) : Option (Bool × Client) :=
  if call.ioWrite then
    match c.prepereBodyChunk with
    | none => none
    | some (needsUserData, c) =>
      if c.req.block.bytes = [] then some (needsUserData, c)
      else call.dataWrite.map fun n => (needsUserData, c.writeBlock n)
  else some (false, c)

/-- The read side of `ci_client_send_and_get_data`. -/
def getData (c : Client) (call : ClientCall) : ClientRet × Client :=
  if call.ioRead then
    match c.netDataRead call.dataRead with
    | none => (.error, c)
    | some c => c.parseIncomingData
  else (.ok, c)

/-- What the library waits for; nothing when the request has been served. -/
def action (c : Client) (needsUserData : Bool) : FilterRet :=
  let readIcap := decide (c.status ≠ .endOfResponse)
  let writeIcap := !c.eofSent || decide (c.req.block.bytes ≠ [])
  let writeUser := decide (0 < c.req.rd.writeToModulePending)
  if readIcap || writeIcap || needsUserData || writeUser then
    .wants readIcap writeIcap needsUserData writeUser
  else .done

/-- `ci_client_send_and_get_data` -/
def sendAndGetData (c : Client) (call : ClientCall) : FilterRet × Client :=
  let c := if c.source = none then { c with eofSent := true } else c
  match c.sendData call with
  | none => (.error, c)
  | some (needsUserData, c) =>
    match c.getData call with
    | (.error, c) => (.error, c)
    | (.fault, c) => (.fault, c)
    | (.noContent, c) => (.done, { c with returnCode := 204 })
    | (_, c) => (c.action needsUserData, c)

/-! ## The preview -/

/-- `ci_client_handle_previewed_response` with its status code, once the head is read. -/
def previewedResponse (c : Client) (status : Int) : Option Client :=
  if status = 204 then some c.unpackResponse
  else if (c.eofSent ∧ status = 200) ∨ status = 206 then
    c.unpackResponse.responseEntities.map fun c =>
      { c with status := if c.req.entities.length < 2 then .getBody else .getHeaders }
  else
    some { c with
      status := if status = 100 then .getNothing else c.status
      continued := c.continued || decide (status = 100)
      head := []
      req := { c.req with responseHeader := c.req.responseHeader.reset } }

/-- The library waits for the answer to the preview. -/
def readPreviewResponse (c : Client) (call : ClientCall) : FilterRet × Client :=
  match c.netDataRead call.previewRead with
  | none => (.error, c)
  | some c =>
    match c.parseIcapHeader with
    | (.ok, c) =>
      match scanStatus c.head with
      | none => (.error, c)
      | some status =>
        match c.previewedResponse status with
        | none => (.error, c)
        | some c =>
          let c := { c with returnCode := status }
          if status = 204 ∨ status = 206 then (.done, c)
          else if status = 100 then (.wants false true false false, c)
          else if c.status = .readPreviewResponse then (.done, c)
          else c.sendAndGetData call
    | (_, c) => (.wants true false false false, c)

/-! ## A call -/

/-- The headers have been sent: the answer to the preview is next, or the rest of the body. -/
def headersSent (c : Client) (call : ClientCall) : FilterRet × Client :=
  let c := { c with req := c.req.releaseEntities }
  if 0 ≤ c.req.preview then (.wants true false false false, { c with status := .readPreviewResponse })
  else { c with status := .getNothing }.sendAndGetData call

def sendHeaders (c : Client) (call : ClientCall) : FilterRet × Client :=
  match c.sendRequestHeaders c.eofSent call.headWrite with
  | (.ok, c) => { c with status := .sendHeadersFinished }.headersSent call
  | (.needsMore, c) => (.wants false true false false, c)
  | (_, c) => (.error, c)

/-- `ci_client_icapfilter_nonblocking` -/
def icapfilterNonblocking (args : FilterArgs) (c : Client) (call : ClientCall) : FilterRet × Client :=
  match c.status with
  | .init =>
    match prepareHeaders args c with
    | none => (.error, c)
    | some c => c.sendHeaders call
  | .writeNothing | .writeIcapHeaders | .writeReqHeaders | .writeResHeaders | .writePreviewInfo
  | .writePreview | .writeEofInfo => c.sendHeaders call
  | .sendHeadersFinished => c.headersSent call
  | .readPreviewResponse => if 0 ≤ c.req.preview then c.readPreviewResponse call else (.done, c)
  | _ => c.sendAndGetData call

/-- A call while the library has not finished. -/
def step (args : FilterArgs) (c : Client) (call : ClientCall) : Client :=
  match c.ret with
  | .wants _ _ _ _ =>
    let (ret, c) := c.icapfilterNonblocking args call
    { c with ret := ret }
  | _ => c

end Client

end CIcap
