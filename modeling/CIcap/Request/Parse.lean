import CIcap.Request.Req

/-! # Parsing the head of a request

`parse_request`, `process_encapsulated`, `check_request` and the loop of `parse_header` over
the header lines (`request.c`, `request_common.c`). The functions work on the lines of a header
list, which are C strings. A function that fails returns the request as far as it has changed
it.
-/

namespace CIcap

open CText

variable {σ : Type}

/-- The answer of `access_check_request`: denied with or without a demand for credentials, and
the headers the check adds to the response. -/
inductive AccessAnswer where
  | allow
  | deny (authRequired : Bool) (headers : List (List UInt8))

/-- The configuration of the server and the tables of its services. -/
structure Config (σ : Type) where
  pipelining : Bool := true
  checkForBuggyClient : Bool := false
  allow204As200okZeroEncaps : Bool := false
  fakeAllow204 : Bool := true
  defaultService : Option (List UInt8) := none
  findService : List UInt8 → Option (Service σ)
  /-- the service of an alias and its arguments -/
  findServiceAlias : List UInt8 → Option (Service σ × List UInt8) := fun _ => none
  accessCheckRequest : View → AccessAnswer := fun _ => .allow
  myHostname : List UInt8 := bytes "localhost"
  version : List UInt8 := bytes "0.6.4"

/-- `CI_MAXHOSTNAMELEN` -/
def maxHostnameLen : Nat := 256

/-- `MAX_SERVICE_NAME` -/
def maxServiceName : Nat := 255

/-- `MAX_SERVICE_ARGS` -/
def maxServiceArgs : Nat := 255

def startsWith (word s : List UInt8) : Bool := s.take word.length = word

def startsWithCase (word s : List UInt8) : Bool :=
  (s.take word.length).map lower = word.map lower

/-- `strstr(s, word) != NULL` -/
def contains (word : List UInt8) : List UInt8 → Bool
  | [] => word = []
  | b :: s => startsWith word (b :: s) || contains word s

/-- `strcasestr(s, word) != NULL` -/
def containsCase (word : List UInt8) : List UInt8 → Bool
  | [] => word = []
  | b :: s => startsWithCase word (b :: s) || containsCase word s

/-- `strtol` on a C string. -/
def strtolStr (base : Nat) (s : List UInt8) : Int × List UInt8 :=
  match strtol base (s ++ [0]) with
  | some (v, stop) => (v, stop.dropLast)
  | none => (0, s)

/-! ## The request line -/

/-- `get_method` -/
def getMethod (buf : List UInt8) : Option (ReqType × List UInt8) :=
  if startsWith (bytes "OPTIONS") buf then some (.options, buf.drop 7)
  else if startsWith (bytes "REQMOD") buf then some (.reqmod, buf.drop 6)
  else if startsWith (bytes "RESPMOD") buf then some (.respmod, buf.drop 7)
  else none

/-- The arguments behind the `?` are appended to those the request has, as far as there is
room; `none` when no blank ends them. -/
def takeArgs (req : Req σ) (s : List UInt8) : Option (Req σ × List UInt8) :=
  if 32 ∈ s then
    let text := s.takeWhile (· ≠ 32)
    let old := if req.args ≠ [] ∧ text ≠ [] then req.args ++ [38] else req.args
    some ({ req with args := old ++ text.take (maxServiceArgs - old.length) },
      s.dropWhile (· ≠ 32))
  else none

/-- The service name and the arguments behind the host name. -/
def takeService (req : Req σ) (s : List UInt8) : Req σ × Option (List UInt8) :=
  match s with
  | 47 :: s =>
    let name := (s.takeWhile (fun b => b ≠ 32 && b ≠ 63)).take maxServiceName
    let req := if name ≠ [] then { req with service := name } else req
    match s.dropWhile (fun b => b ≠ 32 && b ≠ 63) with
    | 63 :: s =>
      match takeArgs req s with
      | some (req, s) => (req, some s)
      | none => (req, none)
    | s => (req, some s)
  | s => (req, some s)

/-- `ICAP/major.minor` with a positive major number. -/
def versionOk (s : List UInt8) : Bool :=
  if startsWith (bytes "ICAP/") s then
    let (major, stop) := strtolStr 10 (s.drop 5)
    if 0 < toInt32 major ∧ stop.head? = some 46 then
      let (minor, stop') := strtolStr 10 (stop.drop 1)
      stop'.length ≠ (stop.drop 1).length && toInt32 minor ≠ -1
    else false
  else false

/-- The service of the request, by its name or as an alias. -/
def findModule (cfg : Config σ) (req : Req σ) : Req σ :=
  let req :=
    if req.service = [] then
      { req with service := (cfg.defaultService.getD []).take maxServiceName }
    else req
  if req.service = [] then { req with mod := none }
  else
    match cfg.findService req.service with
    | some m => { req with mod := some m }
    | none =>
      match cfg.findServiceAlias req.service with
      | none => { req with mod := none }
      | some (m, args) =>
        { req with mod := some m, args := if args ≠ [] then args.take maxServiceArgs else req.args }

/-- `parse_request` -/
def parseRequest (cfg : Config σ) (req : Req σ) (buf : List UInt8) : Ec × Req σ :=
  match getMethod buf with
  | none => (.ec400, { req with type := none })
  | some (type, s) =>
    let req := { req with type := some type }
    let s := s.dropWhile (· = 32)
    let url :=
      if startsWithCase (bytes "icap://") s then some (s.drop 7)
      else if startsWithCase (bytes "icaps://") s then some (s.drop 8)
      else none
    match url with
    | none => (.ec400, req)
    | some s =>
      let host := s.takeWhile (fun b => b ≠ 47 && b ≠ 32)
      let req := { req with reqServer := host.take maxHostnameLen }
      match takeService req (s.dropWhile (fun b => b ≠ 47 && b ≠ 32)) with
      | (req, none) => (.ec400, req)
      | (req, some s) =>
        if !versionOk (s.dropWhile (· = 32)) then (.ec400, req)
        else
          let req := findModule cfg req
          match req.mod with
          | none => (.ec404, req)
          | some m =>
            if !m.supports type ∧ type ≠ .options then (.ec405, req) else (.ec100, req)

/-! ## The Encapsulated header -/

/-- `get_encaps_type`: the type, its value and the rest of the text. -/
def getEncapsType (s : List UInt8) : Option (EntityType × Int × List UInt8) :=
  let entry (type : EntityType) (n : Nat) : EntityType × Int × List UInt8 :=
    let (v, stop) := strtolStr 10 (s.drop n)
    (type, toInt32 v, stop)
  if startsWith (bytes "req-hdr") s then some (entry .reqHdr 8)
  else if startsWith (bytes "res-hdr") s then some (entry .resHdr 8)
  else if startsWith (bytes "req-body") s then some (entry .reqBody 9)
  else if startsWith (bytes "res-body") s then some (entry .resBody 9)
  else if startsWith (bytes "null-body") s then some (entry .nullBody 10)
  else none

/-- The loop of `process_encapsulated`: `num` entities have been read and `hasbody` is its
value so far. Every round takes a byte of the text, so its length is enough fuel. -/
def encapsLoop : Nat → Req σ → Nat → Bool → List UInt8 → Ec × Req σ
  | 0, req, _, _, _ => (.ec400, req)
  | fuel + 1, req, num, hasbody, s =>
    if s = [] then (.ec100, { req with hasbody := hasbody })
    else
      match getEncapsType s with
      | none => (.ec400, req)
      | some (type, val, stop) =>
        if 5 < num then (.ec100, { req with hasbody := hasbody })
        else
          let (e, req) := req.allocEntity type val
          let entities := req.entities.take num ++ [e] ++ req.entities.drop (num + 1)
          encapsLoop fuel { req with entities := entities } (num + 1)
            (if type = .nullBody then false else hasbody)
            (stop.dropWhile (fun b => isSpace b || b = 44))

/-- `process_encapsulated` on the text behind `Encapsulated:`. -/
def processEncapsulated (req : Req σ) (s : List UInt8) : Ec × Req σ :=
  encapsLoop (s.length + 1) req 0 true (s.dropWhile isSpace)

/-- `check_request`: the types of the entities fit the method. -/
def checkRequest (req : Req σ) : Ec :=
  let types : List EntityType := req.entities.map (fun e => e.type)
  match req.type with
  | some .options => .ec100
  | some .reqmod =>
    match types with
    | [.reqHdr, .reqBody] | [.reqHdr, .nullBody] | [.reqBody] => .ec100
    | _ => .ec400
  | some .respmod =>
    match types with
    | [.reqHdr, .resHdr, .resBody] | [.reqHdr, .resHdr, .nullBody] => .ec100
    | [.resHdr, .resBody] | [.resHdr, .nullBody] | [.reqHdr, .resBody] | [.reqHdr, .nullBody] =>
      .ec100
    | [.resBody] => .ec100
    | _ => .ec400
  | none => if req.entities = [] then .ec400 else .ec100

/-! ## The header lines -/

/-- The value of a `Preview` header, when it is in the range of a `long`. -/
def previewNumber (s : List UInt8) : Option Int :=
  let (neg, s) := takeSign s
  match takeDigits 10 0 false (s ++ [0]) with
  | some (n, true, _) =>
    let v := if neg then -(n : Int) else n
    if clampLong v = v then some (toInt32 v) else none
  | _ => some 0

/-- `ci_buf_reset_and_resize` -/
def Buf.resetAndResize (b : Buf) (n : Nat) : Buf :=
  if n ≤ b.size then { b with data := [] } else { data := [], size := bufferSize n }

def parseHeaderLine (req : Req σ) (line : List UInt8) : Ec × Req σ :=
  if startsWithCase (bytes "Preview:") line then
    match previewNumber ((line.drop 8).dropWhile isSpace) with
    | none => (.ec100, req)
    | some result =>
      let req := { req with preview := result }
      if 0 ≤ result then
        (.ec100, { req with previewData := req.previewData.resetAndResize (result.toNat + 64) })
      else (.ec100, req)
  else if startsWithCase (bytes "Encapsulated:") line then processEncapsulated req (line.drop 13)
  else if startsWithCase (bytes "Connection:") line then
    if startsWithCase (bytes "close") ((line.drop 11).dropWhile isSpace) then
      (.ec100, { req with keepalive := false })
    else (.ec100, req)
  else if startsWithCase (bytes "Allow:") line then
    (.ec100, { req with
      allow204 := req.allow204 || contains (bytes "204") (line.drop 6)
      allow206 := req.allow206 || contains (bytes "206") (line.drop 6)
      allowTrailers := req.allowTrailers || containsCase (bytes "trailers") (line.drop 6) })
  else (.ec100, req)

def parseHeaderLines : Req σ → List (List UInt8) → Ec × Req σ
  | req, [] => (.ec100, req)
  | req, line :: lines =>
    match parseHeaderLine req line with
    | (.ec100, req) => parseHeaderLines req lines
    | res => res

/-- `parse_header`, once the bytes of the head have been read. -/
def parseHead (cfg : Config σ) (req : Req σ) (head : List UInt8) : Ec × Req σ :=
  match req.requestHeader.unpack head with
  | none => (.ec400, req)
  | some h =>
    let req := { req with requestHeader := h }
    match h.texts with
    | [] => (.ec400, req)
    | first :: lines =>
      match parseRequest cfg req first with
      | (.ec100, req) =>
        match parseHeaderLines req lines with
        | (.ec100, req) => (checkRequest req, req)
        | res => res
      | res => res

end CIcap
