import CIcap.Body.RingBuf
import CIcap.Request.Types

/-! # The request object

`ci_request_t` with the functions that allocate and reset it, the encapsulated entities and
the calls of the service API (`request_common.c`, `simple_api.c`). The receive side of the
request is the `Reader` of the chunk parser. The entities that a request does not use any more
are kept for the next ones (`trash`).
-/

namespace CIcap

open CText

variable {σ : Type}

/-- The size of the buffer that `ci_buffer_alloc2` returns for a request of `n` bytes: a block
of one of the pools, or memory of just that size. -/
def bufferSize (n : Nat) : Nat :=
  match [64, 128, 256, 512, 1024, 2048, 4096, 8192, 16384, 32768].find? (n ≤ ·) with
  | some m => m
  | none => n

/-- The fields of `ci_request_t` that the server reads while it processes a request. -/
structure Req (σ : Type) where
  /-- the receive side -/
  rd : Reader := {}
  packed : Bool := false
  type : Option ReqType := none
  /-- `req_server`, the host name of the request line -/
  reqServer : List UInt8 := []
  service : List UInt8 := []
  args : List UInt8 := []
  /-- `current_service_mod` -/
  mod : Option (Service σ) := none
  preview : Int := -1
  previewData : Buf := {}
  keepalive : Bool := true
  allow204 : Bool := false
  allow206 : Bool := false
  allowTrailers : Bool := false
  hasbody : Bool := false
  responceHasbody : Bool := false
  requestHeader : Headers := {}
  responseHeader : Headers := {}
  xheaders : Headers := {}
  xtrailers : Option Headers := none
  trailerNames : Option (List UInt8) := none
  status : SendStatus := .nothing
  returnCode : Option Ec := none
  /-- `pstrblock_responce`, `remain_send_block_bytes` -/
  block : Block := .none
  dataLocked : Bool := true
  echoBody : Option RingBuf := none
  authRequired : Bool := false
  entities : List Entity := []
  trash : List Entity := []
  /-- memory has been used that was freed before -/
  wild : Bool := false

namespace Req

/-! ## Entities -/

/-- `ci_request_alloc_entity`: an unused entity of the type is taken again, with an empty
header list that keeps the size of its index. -/
def allocEntity (req : Req σ) (type : EntityType) (start : Int) : Entity × Req σ :=
  match req.trash.find? (·.type = type) with
  | some e =>
    ({ type := type, start := start, headers := e.headers.reset },
      { req with trash := req.trash.filter (·.type ≠ type) })
  | none => ({ type := type, start := start }, req)

/-- The entity is kept for later; one of the same type that was kept before is destroyed. -/
def putToTrash (req : Req σ) (e : Entity) : Req σ :=
  { req with trash := e :: req.trash.filter (·.type ≠ e.type) }

def releaseEntities (req : Req σ) : Req σ :=
  { req.entities.foldl putToTrash req with entities := [] }

/-- `ci_http_response_headers` -/
def httpResponseHeaders (req : Req σ) : Option Headers :=
  ((req.entities.take 3).find? (·.type = .resHdr)).map (·.headers)

/-- `ci_http_request_headers`: the list of the first entity, or one that was released and not
emptied since. -/
def httpRequestHeaders (req : Req σ) : Option Headers :=
  match req.entities with
  | ⟨.reqHdr, _, h⟩ :: _ => some h
  | _ =>
    ((req.trash.find? (·.type = .reqHdr)).map (·.headers)).filter (fun h => !h.isEmpty)

/-- A header is added to the header list of the first entity of a type. -/
def addToEntity (type : EntityType) (header : List UInt8) : List Entity → List Entity
  | [] => []
  | e :: es =>
    if e.type = type then { e with headers := e.headers.add header } :: es
    else e :: addToEntity type header es

/-- `ci_http_response_add_header` -/
def httpResponseAddHeader (req : Req σ) (header : List UInt8) : Req σ :=
  if req.packed then req
  else
    let heads := addToEntity .resHdr header (req.entities.take 3)
    { req with entities := heads ++ req.entities.drop 3 }

/-- `ci_http_request_add_header` -/
def httpRequestAddHeader (req : Req σ) (header : List UInt8) : Req σ :=
  if req.packed then req
  else
    match req.entities with
    | ⟨.reqHdr, s, h⟩ :: es => { req with entities := ⟨.reqHdr, s, h.add header⟩ :: es }
    | _ =>
      if req.httpRequestHeaders.isSome then
        { req with trash := addToEntity .reqHdr header req.trash }
      else req

/-- The new entities of `ci_http_response_create` and `ci_http_request_create`. -/
def createEntities (req : Req σ) (types : List EntityType) : Req σ :=
  types.foldl
    (fun req type =>
      let (e, req) := req.allocEntity type 0
      { req with entities := req.entities ++ [e] })
    req.releaseEntities

/-! ## Allocation and reset -/

/-- `ci_request_alloc` -/
def alloc : Req σ := {}

/-- The unused header lists are emptied. -/
def resetTrash (trash : List Entity) : List Entity :=
  trash.map fun e => if e.isHdr then { e with headers := e.headers.reset } else e

/-- `ci_request_reset`. What survives is memory: the host name, the preview buffer, the indices
of the header lists, an emptied trailer list and the unused entities. -/
def reset (req : Req σ) : Req σ :=
  { reqServer := req.reqServer
    previewData := { req.previewData with data := [] }
    requestHeader := req.requestHeader.reset
    responseHeader := req.responseHeader.reset
    xheaders := req.xheaders.reset
    xtrailers := req.xtrailers.map Headers.reset
    trash := resetTrash req.releaseEntities.trash }

/-! ## The service API -/

/-- `ci_icap_response_promise_trailers`. Where the buffer of the names is too small for more,
`ci_buffer_realloc` frees it, and the function goes on with the old one. -/
def promiseTrailers (req : Req σ) (names : List UInt8) : Req σ :=
  if req.packed || !req.allowTrailers then req
  else
    match req.trailerNames with
    | some old =>
      let new := old ++ bytes ", " ++ names
      { req with
        trailerNames := some new
        wild := req.wild || decide (bufferSize (old.length + 1) < new.length + 1) }
    | none => { req with trailerNames := some (bytes "Trailer: " ++ names) }

/-- `ci_icap_response_add_trailer` -/
def addTrailer (req : Req σ) (trailer : List UInt8) : Req σ :=
  { req with xtrailers := some ((req.xtrailers.getD {}).add trailer) }

def api (req : Req σ) : ApiCall → Req σ
  | .lockData => { req with dataLocked := true }
  | .unlockData => { req with dataLocked := false }
  | .addXheader header => { req with xheaders := req.xheaders.add header }
  | .promiseTrailers names => req.promiseTrailers names
  | .addTrailer trailer => req.addTrailer trailer
  | .originBody offset =>
    if req.allow206 then { req with rd := { req.rd with i206UseOriginalBody := offset } } else req
  | .httpResponseCreate hasReshdr hasBody =>
    req.createEntities
      ((if hasReshdr then [.resHdr] else []) ++ [if hasBody then .resBody else .nullBody])
  | .httpRequestCreate hasBody =>
    req.createEntities [.reqHdr, if hasBody then .reqBody else .nullBody]
  | .httpResponseAddHeader header => req.httpResponseAddHeader header
  | .httpRequestAddHeader header => req.httpRequestAddHeader header

def apis (req : Req σ) (calls : List ApiCall) : Req σ := calls.foldl api req

def view (req : Req σ) : View where
  type := req.type
  service := req.service
  args := req.args
  preview := req.preview
  previewData := req.previewData.data
  allow204 := req.allow204
  allow206 := req.allow206
  allowTrailers := req.allowTrailers
  hasbody := req.hasbody
  hasAllData := req.rd.eofReceived
  sentData := req.status ≠ .nothing
  requestHeaders := req.requestHeader.texts
  entities := req.entities.map fun e => (e.type, e.headers.texts)

end Req

end CIcap
