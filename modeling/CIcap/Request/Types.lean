import CIcap.Chunk.Reader
import CIcap.Header.List
import CIcap.Lib.Pieces

/-! # The request object and its surroundings

The fields of `ci_request_t` that the server side of `request.c` works on, the service module
with its handlers, and the connection. The service is a set of functions over a state of its
own: a handler sees the request through the calls of the service API (`View`), and answers with
a result and the API calls it makes (`ApiCall`).
-/

namespace CIcap

open CText

/-! ## Codes -/

/-- `enum ci_error_codes` -/
inductive Ec where
  | ec100 | ec200 | ec204 | ec206 | ec400 | ec401 | ec403 | ec404 | ec405 | ec407 | ec408
  | ec500 | ec501 | ec502 | ec503 | ec505
  deriving DecidableEq, Repr

/-- `ci_status_code`, `ci_status_code_string`: the text behind `ICAP/1.0`. -/
def Ec.text : Ec → List UInt8
  | ec100 => bytes "100 Continue"
  | ec200 => bytes "200 OK"
  | ec204 => bytes "204 No Content"
  | ec206 => bytes "206 Partial Content"
  | ec400 => bytes "400 Bad request"
  | ec401 => bytes "401 Unauthorized"
  | ec403 => bytes "403 Forbidden"
  | ec404 => bytes "404 Service not found"
  | ec405 => bytes "405 Not allowed"
  | ec407 => bytes "407 Authentication Required"
  | ec408 => bytes "408 Request timeout"
  | ec500 => bytes "500 Server error"
  | ec501 => bytes "501 Not implemented"
  | ec502 => bytes "502 Bad Gateway"
  | ec503 => bytes "503 Service overloaded"
  | ec505 => bytes "505 Unsupported version"

def Ec.statusLine (ec : Ec) : List UInt8 := bytes "ICAP/1.0 " ++ ec.text

/-- The ICAP methods. -/
inductive ReqType where
  | options | reqmod | respmod
  deriving DecidableEq, Repr

/-- The types of encapsulated entities. -/
inductive EntityType where
  | reqHdr | resHdr | reqBody | resBody | nullBody | optBody
  deriving DecidableEq, Repr

/-- `ci_encaps_entity_t`. The header list is used for the two header types only. -/
structure Entity where
  type : EntityType
  start : Int := 0
  headers : Headers := {}
  deriving DecidableEq

def Entity.isHdr (e : Entity) : Bool := e.type = .reqHdr || e.type = .resHdr

/-- The progress of the response, `req->status`. -/
inductive SendStatus where
  | nothing | respHead | head1 | head2 | head3 | body | eof | trailers
  deriving DecidableEq, Repr

/-! ## What is written -/

/-- What the bytes of a block are: the interim response `100 Continue`, the head of the
response with its header list, an encapsulated header block, body data not yet formatted as a
chunk, a chunk, the last chunk, trailers. -/
inductive BlockSrc where
  | interim
  | head (h : Headers)
  | entity (i : Nat)
  | raw
  | chunk
  | last
  | trailers
  deriving DecidableEq

/-- `pstrblock_responce`, `remain_send_block_bytes`: the bytes that remain to be sent of a
block, and how many bytes of it have been sent. -/
abbrev Block : Type := Pieces.Piece BlockSrc UInt8

def Block.none : Block := ⟨.raw, 0, []⟩

/-- A piece of a block that has been written to the connection. -/
abbrev Seg : Type := Pieces.Piece BlockSrc UInt8

/-! ## The request -/

/-- `struct ci_buf`: the data and the size of the memory. -/
structure Buf where
  data : List UInt8 := []
  size : Nat := 0
  deriving DecidableEq

/-- What a handler can ask the request for. -/
structure View where
  type : Option ReqType
  service : List UInt8
  args : List UInt8
  preview : Int
  previewData : List UInt8
  allow204 : Bool
  allow206 : Bool
  allowTrailers : Bool
  hasbody : Bool
  hasAllData : Bool
  sentData : Bool
  requestHeaders : List (List UInt8)
  entities : List (EntityType × List (List UInt8))

/-- The calls of the service API that change the request. -/
inductive ApiCall where
  /-- `ci_req_lock_data` -/
  | lockData
  /-- `ci_req_unlock_data` -/
  | unlockData
  /-- `ci_icap_add_xheader` -/
  | addXheader (header : List UInt8)
  /-- `ci_icap_response_promise_trailers` -/
  | promiseTrailers (names : List UInt8)
  /-- `ci_icap_response_add_trailer` -/
  | addTrailer (trailer : List UInt8)
  /-- `ci_request_206_origin_body` -/
  | originBody (offset : Nat)
  /-- `ci_http_response_create` -/
  | httpResponseCreate (hasReshdr hasBody : Bool)
  /-- `ci_http_request_create` -/
  | httpRequestCreate (hasBody : Bool)
  /-- `ci_http_response_add_header` -/
  | httpResponseAddHeader (header : List UInt8)
  /-- `ci_http_request_add_header` -/
  | httpRequestAddHeader (header : List UInt8)
  deriving DecidableEq

/-- The answers of the preview and end-of-data handlers. -/
inductive ModAnswer where
  | done | continue | allow204 | allow206 | error
  deriving DecidableEq

/-- The arguments of `service_io`: whether `rbuf` is a buffer, the room in it, the data offered
in `wbuf` (`none` for a null pointer), and whether the request body has ended. -/
structure IoArgs where
  rbuf : Bool
  room : Nat
  wdata : Option (List UInt8)
  iseof : Bool

/-- What `service_io` puts into `*rlen`: a number of bytes, `CI_EOF`, or another negative
number. -/
inductive IoRead where
  | data (bytes : List UInt8)
  | eof
  | bad
  deriving DecidableEq

/-- The result of `service_io`: `CI_ERROR`, or `*rlen` and `*wlen` (`none` for a negative
one). -/
inductive IoRes where
  | error
  | ok (read : IoRead) (took : Option Nat)
  deriving DecidableEq

/-- A service module and the data of its `ci_service_xdata_t`. -/
structure Service (σ : Type) where
  modName : List UInt8
  modShortDescr : Option (List UInt8) := none
  /-- `mod_type` supports the method -/
  supports : ReqType → Bool
  /-- the service data exist and their status is `CI_SERVICE_OK` -/
  ready : Bool := true
  /-- the tag the service has set -/
  istag : List UInt8
  transferPreview : Option (List UInt8) := none
  transferIgnore : Option (List UInt8) := none
  transferComplete : Option (List UInt8) := none
  previewSize : Int := -1
  allow204 : Bool := false
  allow206 : Bool := false
  maxConnections : Int := -1
  optionsTtl : Int := 0
  /-- the names of the `X-Include` options -/
  xopts : List (List UInt8) := []
  /-- the options handlers: whether all succeed -/
  optionHandlers : σ → View → Bool × σ × List ApiCall := fun s _ => (true, s, [])
  /-- `mod_init_request_data` -/
  initRequestData : Option (σ → View → σ × List ApiCall) := none
  /-- `mod_check_preview_handler`, with the preview data or a null pointer -/
  checkPreviewHandler : Option (σ → View → Option (List UInt8) → ModAnswer × σ × List ApiCall) :=
    none
  /-- `mod_end_of_data_handler` -/
  endOfDataHandler : Option (σ → View → ModAnswer × σ × List ApiCall) := none
  /-- `mod_service_io` -/
  serviceIo : Option (σ → View → IoArgs → IoRes × σ × List ApiCall) := none

/-- The `ISTag` header, as `ci_service_set_istag` writes it. -/
def Service.istagLine {σ : Type} (m : Service σ) : List UInt8 :=
  bytes "ISTag: \"CI0001" ++ m.istag.take 26 ++ bytes "\""

end CIcap
