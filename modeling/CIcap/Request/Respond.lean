import CIcap.Request.Parse

/-! # Building the response

The functions of `request.c` that build what is sent: the heads of the responses
(`ec_responce`, `mk_responce_header`, `options_responce`), the progress of a response from one
block to the next (`update_send_status`) and the chunks of its body (`format_body_chunk`).
-/

namespace CIcap

open CText

variable {σ : Type} (cfg : Config σ)

/-- `MAX_CHUNK_SIZE` -/
def maxChunkSize : Nat := 4064

/-! ## Heads -/

/-- The `Connection` header. -/
def connectionLine (req : Req σ) : List UInt8 :=
  if req.keepalive then bytes "Connection: keep-alive" else bytes "Connection: close"

/-- The head up to the headers of the service. -/
def startHead (req : Req σ) (status : List UInt8) : Headers :=
  let head := req.responseHeader.reset.addAll
    ([status, bytes "Server: C-ICAP/" ++ cfg.version, connectionLine req] ++
      (req.mod.map (fun m => [m.istagLine])).getD [])
  if req.xheaders.isEmpty then head else head.addHeaders req.xheaders

/-- The head that `ec_responce` writes, packed. -/
def ecHead (req : Req σ) (ec : Ec) : Headers :=
  let as200 := decide (ec = .ec204) && cfg.allow204As200okZeroEncaps
  let head := startHead cfg req (if as200 then Ec.ec200 else ec).statusLine
  let head :=
    if as200 then
      head.add (if req.type = some .reqmod then bytes "Encapsulated: req-hdr=0, null-body=0"
        else bytes "Encapsulated: res-hdr=0, null-body=0")
    else head
  head.pack

/-- The request after `ec_responce`; the head is in `responseHeader`. -/
def ecResponce (req : Req σ) (ec : Ec) : Req σ :=
  { req with
    responseHeader := ecHead cfg req ec
    returnCode := some (if ec = .ec204 ∧ cfg.allow204As200okZeroEncaps then .ec200 else ec)
    status := .eof }

/-- The text that `ec_responce_simple` writes. -/
def ecResponceSimple (ec : Ec) : List UInt8 := ec.statusLine ++ crlf ++ crlf

/-- `sizeofencaps` -/
def sizeofencaps (e : Entity) : Nat := if e.isHdr then e.headers.buf.length else 0

/-- `ci_encaps_entity_string` -/
def EntityType.text : EntityType → List UInt8
  | reqHdr => bytes "req-hdr"
  | resHdr => bytes "res-hdr"
  | reqBody => bytes "req-body"
  | resBody => bytes "res-body"
  | nullBody => bytes "null-body"
  | optBody => bytes "opt-body"

/-- The entities with the offsets at which they start. -/
def setStarts : Nat → List Entity → List Entity
  | _, [] => []
  | start, e :: es => { e with start := start } :: setStarts (start + sizeofencaps e) es

/-- The offsets of the first three entities are set. -/
def placeEntities (es : List Entity) : List Entity := setStarts 0 (es.take 3) ++ es.drop 3

def packEntities (es : List Entity) : List Entity :=
  es.map fun e => if e.isHdr then { e with headers := e.headers.pack } else e

/-- The `Encapsulated` header of at most three entities. -/
def encapsulatedLine (es : List Entity) : List UInt8 :=
  match es.take 3 with
  | [] => bytes "Encapsulated: null-body=0"
  | e :: rest =>
    let entry (e : Entity) : List UInt8 := e.type.text ++ [61] ++ natText 10 e.start.toNat
    bytes "Encapsulated: " ++ entry e ++ rest.flatMap (fun e => bytes ", " ++ entry e)

/-- `ci_response_pack` -/
def responsePack (req : Req σ) : Req σ :=
  let es := placeEntities req.entities
  { req with
    packed := true
    entities := packEntities es
    responseHeader := (req.responseHeader.add (encapsulatedLine es)).pack }

/-- `resp_check_body` -/
def respCheckBody (es : List Entity) : Bool := es.all (·.type ≠ .nullBody)

/-- The request headers that came with a response are not sent back. -/
def dropRequestHeader (req : Req σ) : Req σ :=
  match req.type, req.entities with
  | some .respmod, e :: es =>
    if e.type = .reqHdr then { req.putToTrash e with entities := es } else req
  | _, _ => req

/-- The trailers are announced in the head of a response with a body. -/
def announceTrailers (req : Req σ) : Headers :=
  match req.trailerNames with
  | some names =>
    if req.responceHasbody ∧ (req.returnCode = some .ec200 ∨ req.returnCode = some .ec206) then
      (req.responseHeader.add (bytes "Allow: trailers")).add names
    else req.responseHeader
  | none => req.responseHeader

/-- The `Via` header goes to the headers of the HTTP message. -/
def viaLine (req : Req σ) : List UInt8 :=
  let name := (req.mod.map (fun m => m.modShortDescr.getD m.modName)).getD []
  (bytes "Via: ICAP/1.0 " ++ cfg.myHostname ++ bytes " (C-ICAP/" ++ cfg.version ++ bytes " " ++ name ++
    bytes " )").take 511

def addVia (req : Req σ) : Req σ :=
  match req.type with
  | some .respmod => req.httpResponseAddHeader (viaLine cfg req)
  | some .reqmod => req.httpRequestAddHeader (viaLine cfg req)
  | _ => req

/-- `mk_responce_header` -/
def mkResponceHeader (req : Req σ) : Req σ :=
  let status := (req.returnCode.getD .ec200).statusLine
  let req := { req with responseHeader := startHead cfg req status }
  let req := dropRequestHeader req
  let req := { req with responceHasbody := respCheckBody req.entities }
  let req := { req with responseHeader := announceTrailers req }
  responsePack (addVia cfg req)

/-! ## The head of an OPTIONS response -/

/-- `MAX_HEADER_SIZE` -/
def maxHeaderSize : Nat := 1023

/-- A `Transfer-*` header of a service, where it has set one. -/
def transferLine (name : List UInt8) (value : Option (List UInt8)) : List (List UInt8) :=
  (value.map fun v => [(name ++ v).take (maxHeaderSize - 1)]).getD []

/-- The header lines of `options_responce` behind the status line; `date` is the time in its
text form. -/
def optionsLines (m : Service σ) (date : List UInt8) : List (List UInt8) :=
  let methods :=
    (if m.supports .respmod then bytes "RESPMOD" else []) ++
      (if m.supports .respmod && m.supports .reqmod then bytes ", " else []) ++
      (if m.supports .reqmod then bytes "REQMOD" else [])
  let transfer :=
    (if 0 ≤ m.previewSize then transferLine (bytes "Transfer-Preview: ") m.transferPreview else []) ++
      transferLine (bytes "Transfer-Ignore: ") m.transferIgnore ++
      transferLine (bytes "Transfer-Complete: ") m.transferComplete
  (if m.supports .respmod || m.supports .reqmod then [bytes "Methods: " ++ methods] else []) ++
  [(bytes "Service: C-ICAP/" ++ cfg.version ++ bytes " server - " ++
    m.modShortDescr.getD m.modName).take maxHeaderSize, m.istagLine] ++ transfer ++
  (if transfer = [] ∧ 0 ≤ m.previewSize then [bytes "Transfer-Preview: *"] else []) ++
  [if 0 < m.optionsTtl then bytes "Options-TTL: " ++ natText 10 m.optionsTtl.toNat
    else bytes "Options-TTL: 3600", bytes "Date: " ++ date] ++
  (if 0 ≤ m.previewSize then [bytes "Preview: " ++ natText 10 m.previewSize.toNat] else []) ++
  (if 0 ≤ m.maxConnections then [bytes "Max-Connections: " ++ natText 10 m.maxConnections.toNat]
    else []) ++
  (if m.allow204 && m.allow206 then [bytes "Allow: 204, 206"]
    else if m.allow204 then [bytes "Allow: 204"] else []) ++
  (match m.xopts with
    | [] => []
    | x :: xs => [bytes "X-Include: " ++ x ++ xs.flatMap (fun y => bytes ", " ++ y)])

/-- `options_responce` up to the sending; `ok` tells whether the handlers succeeded. -/
def optionsHead (req : Req σ) (m : Service σ) (ok : Bool) (date : List UInt8) : Req σ :=
  let status := if ok then bytes "ICAP/1.0 200 OK" else bytes "ICAP/1.0 500 Server Error"
  let head := req.responseHeader.reset.addAll (status :: optionsLines cfg m date)
  let head := if req.xheaders.isEmpty then head else head.addHeaders req.xheaders
  let req := responsePack { req with responseHeader := head, returnCode := some .ec200 }
  { req with block := ⟨.head req.responseHeader, 0, req.responseHeader.buf⟩ }

/-! ## From block to block -/

/-- The results of `update_send_status`: `CI_OK`, `CI_EOF`, `CI_ERROR`. -/
inductive SendRet where
  | ok | eof | error
  deriving DecidableEq

/-- The next header block to send and its position among the entities. From the third on the
status stays the same. -/
def nextHead : SendStatus → Option (SendStatus × Nat)
  | .respHead => some (.head1, 0)
  | .head1 => some (.head2, 1)
  | .head2 => some (.head3, 2)
  | .head3 => some (.head3, 2)
  | _ => none

/-- `X_EMPTY_TRAILER` -/
def xEmptyTrailer : List UInt8 := bytes "X-Empty-Trailer: 0" ++ crlf ++ crlf

/-- The trailers of a response that has promised them. -/
def startTrailers (req : Req σ) : Req σ :=
  match req.xtrailers with
  | some h =>
    { req with
      xtrailers := some h.pack
      block := ⟨.trailers, 0, h.pack.buf⟩
      status := .trailers }
  | none => { req with block := ⟨.trailers, 0, xEmptyTrailer⟩, status := .trailers }

/-- The header block of the next entity, the body, or the end of a response without body. -/
def nextBlock (req : Req σ) (status : SendStatus) (i : Nat) : SendRet × Req σ :=
  match (req.entities[i]?).filter Entity.isHdr with
  | some e => (.ok, { req with block := ⟨.entity i, 0, e.headers.buf⟩, status := status })
  | none =>
    if req.responceHasbody then (.ok, { req with status := .body })
    else (.eof, { req with status := .eof, block := .none })

/-- `update_send_status` -/
def updateSendStatus (req : Req σ) : SendRet × Req σ :=
  match req.status with
  | .nothing =>
    let req := mkResponceHeader cfg req
    (.ok, { req with
      block := ⟨.head req.responseHeader, 0, req.responseHeader.buf⟩
      status := .respHead })
  | .trailers => (if req.block.bytes = [] then .eof else .ok, req)
  | .eof =>
    if req.block.bytes = [] then
      if req.allowTrailers && req.trailerNames.isSome then (.ok, startTrailers req)
      else (.eof, req)
    else (.ok, req)
  | .body => (.ok, req)
  | status =>
    match nextHead status with
    | some (status, i) => nextBlock req status i
    | none => (.error, req)

/-! ## Chunks -/

def chunkBytes (data : List UInt8) : List UInt8 := natText 16 data.length ++ crlf ++ data ++ crlf

def lastChunkBytes (req : Req σ) : List UInt8 :=
  if req.returnCode = some .ec206 ∧ 0 ≤ req.rd.i206UseOriginalBody then
    bytes "0; use-original-body=" ++ natText 10 req.rd.i206UseOriginalBody.toNat ++ crlf ++ crlf
  else bytes "0" ++ crlf ++ crlf

/-- `format_body_chunk`: body data become a chunk; `atEof` stands for the value `CI_EOF` of
`remain_send_block_bytes`. The result tells whether `CI_EOF` is returned. -/
def formatBodyChunk (req : Req σ) (atEof : Bool) : Bool × Req σ :=
  if !req.responceHasbody then (true, req)
  else if atEof then (true, { req with block := ⟨.last, 0, lastChunkBytes req⟩ })
  else if req.block.bytes = [] then (false, req)
  else (false, { req with block := ⟨.chunk, 0, chunkBytes req.block.bytes⟩ })

/-- `format_body_chunk` and, when the body has ended, the new status. -/
def formatBody (req : Req σ) (atEof : Bool) : Req σ :=
  if (formatBodyChunk req atEof).1 then { (formatBodyChunk req atEof).2 with status := .eof }
  else (formatBodyChunk req atEof).2

end CIcap
