import CIcap.Request.Server

/-! # The steps of the server

The other parts of `do_request`: reading the head and the encapsulated headers, the preview,
the end of the data and the rest of the response; and `step`, which puts them together.
-/

namespace CIcap

open CText

variable {σ : Type} (cfg : Config σ)

/-- The first `\r\n\r\n` of a block, as an offset. -/
def findEoh : List UInt8 → Option Nat
  | [] => none
  | b :: s =>
    if (b :: s).take 4 = crlf ++ crlf then some 0 else (findEoh s).map (· + 1)

/-- `ICAP_HEADER_READSIZE` -/
def icapHeaderReadsize : Nat := 512

namespace Run

/-! ## The head -/

/-- `do_request` behind `parse_header`: the answer to a bad request, a service that is not
ready and a client without access; otherwise the encapsulated headers are next. -/
def afterHead (c : Run σ) (t : Tick) (ec : Ec) : Run σ :=
  if ec ≠ .ec100 then c.reject cfg t ec
  else
    match c.req.mod with
    | none => { c with pc := .fault }
    | some m =>
      if !m.ready then c.reject cfg t .ec500
      else
        match cfg.accessCheckRequest c.req.view with
        | .deny authRequired headers =>
          let c := { c with req := { c.req with
            xheaders := c.req.xheaders.addAll headers, authRequired := authRequired } }
          c.reject cfg t (if authRequired then .ec407 else .ec403)
        | .allow => { c with pc := .encaps 0 }

/-- The head has been read up to `\r\n\r\n`; what follows it stays in the read buffer. -/
def headRead (c : Run σ) (t : Tick) (buf : List UInt8) (used : Nat) : Run σ :=
  let rd := { c.req.rd with pstrblockRead := buf.drop used, requestBytesIn := used }
  let (ec, req) := parseHead cfg { c.req with rd := rd } (buf.take used)
  { c with req := req }.afterHead cfg t ec

/-- The search of `ci_read_icap_header` in a buffer, from `pos` on. -/
def searchHead (c : Run σ) (t : Tick) (buf : List UInt8) (pos back : Nat) : Run σ :=
  match findEoh (buf.drop pos) with
  | some i => c.headRead cfg t buf (pos + i + 4)
  | none =>
    -- the last three characters are searched again with the next ones
    { c with pc := .readHeader buf (if back < 3 then min buf.length 3 else back) }

/-- The beginning of `ci_read_icap_header`: bytes that were read with the request before are
the first ones of this one. -/
def startStep (c : Run σ) (t : Tick) : Run σ :=
  if cfg.pipelining ∧ c.req.rd.pstrblockRead ≠ [] then
    let buf := c.req.rd.pstrblockRead
    { c with req := { c.req with rd := { c.req.rd with pstrblockRead := [] } } }.searchHead cfg t
      buf 0 0
  else { c with pc := .readHeader [] 0 }

/-- The head cannot be read: nothing is answered. -/
def headLost (c : Run σ) : Run σ := (c.setCode .ec408).close

/-- A round of the loop of `ci_read_icap_header`. -/
def readHeaderStep (c : Run σ) (t : Tick) (buf : List UInt8) (back : Nat) : Run σ :=
  match waitFor t true false with
  | none => c.headLost
  | some _ =>
    match c.readNonblock t icapHeaderReadsize with
    | none => c.headLost
    | some (got, c) =>
      if got = [] then c
      else
        let rd := { c.req.rd with bytesIn := c.req.rd.bytesIn + got.length }
        { c with req := { c.req with rd := rd } }.searchHead cfg t (buf ++ got)
          (buf.length - back) back

/-! ## The encapsulated headers -/

/-- The call of `mod_init_request_data`. -/
def initRequest (c : Run σ) (m : Service σ) : Run σ :=
  match m.initRequestData with
  | some init =>
    { c with svc := (init c.svc c.req.view).1, req := c.req.apis (init c.svc c.req.view).2 }
  | none => c

/-- The beginning of `read_preview_data`: nothing is read while there are bytes in the buffer. -/
def enterReadPreview (c : Run σ) : Run σ :=
  let rd := { c.req.rd with currentChunkLen := 0, chunkBytesRead := 0, writeToModulePending := 0 }
  let c := { c with req := { c.req with rd := rd } }
  if c.req.rd.pstrblockRead = [] then { c with pc := .previewRead } else { c with pc := .previewParse }

/-- The switch of `do_request` over the methods. -/
def dispatchMethod (c : Run σ) (t : Tick) (m : Service σ) : Run σ :=
  match c.req.type with
  | none => c.close
  | some .options =>
    let (ok, c) := c.handled (m.optionHandlers c.svc c.req.view)
    { c with req := optionsHead cfg c.req m ok t.date, pc := .sendOptions }
  | some .reqmod | some .respmod =>
    if 0 ≤ c.req.preview then
      if c.req.hasbody then c.enterReadPreview else { c with pc := .preview true }
    else { c with pc := .fakePreview }

/-- `do_request` behind `parse_encaps_headers`. -/
def dispatch (c : Run σ) (t : Tick) : Run σ :=
  match c.req.mod with
  | none => { c with pc := .fault }
  | some m => (c.initRequest m).dispatchMethod cfg t m

/-- A header block with the line ends some clients forget. -/
def fixHeaderEnd (block : List UInt8) : List UInt8 :=
  if (crlf ++ crlf) <:+ block then block
  else if cfg.checkForBuggyClient ∧ ¬ crlf <:+ block then block ++ crlf
  else block

/-- The header block of an entity has been read. -/
def encapsRead (c : Run σ) (t : Tick) (i : Nat) (block : List UInt8) : Run σ :=
  let rd := { c.req.rd with
    httpBytesIn := c.req.rd.httpBytesIn + block.length
    requestBytesIn := c.req.rd.requestBytesIn + block.length }
  let c := { c with req := { c.req with rd := rd } }
  match (c.req.entities[i]?).bind (fun e => e.headers.unpack (fixHeaderEnd cfg block)) with
  | none => c.reject cfg t .ec400
  | some h =>
    { c with
      req := { c.req with entities := c.req.entities.modify i (fun e => { e with headers := h }) }
      pc := .encaps (i + 1) }

/-- A round of `parse_encaps_headers`. The size of a header block is the difference of two
offsets; a negative one is a bad memory access. -/
def encapsStep (c : Run σ) (t : Tick) (i : Nat) : Run σ :=
  match c.req.entities[i]? with
  | none => c.dispatch cfg t
  | some e =>
    if !e.isHdr then c.dispatch cfg t
    else
      match c.req.entities[i + 1]? with
      | none => c.reject cfg t .ec400
      | some e' =>
        let size := e'.start - e.start
        if size < 0 then { c with pc := .fault }
        else
          let n := size.toNat
          let buf := c.req.rd.pstrblockRead.take n
          let rd := { c.req.rd with pstrblockRead := c.req.rd.pstrblockRead.drop n }
          let c := { c with req := { c.req with rd := rd } }
          if buf.length = n then c.encapsRead cfg t i buf
          else { c with pc := .readEncaps i buf (n - buf.length) }

/-- A round of the loop of `read_encaps_header`. -/
def readEncapsStep (c : Run σ) (t : Tick) (i : Nat) (buf : List UInt8) (remains : Nat) : Run σ :=
  match waitFor t true false with
  | none => c.reject cfg t .ec400
  | some _ =>
    match c.readNonblock t remains with
    | none => c.reject cfg t .ec400
    | some (got, c) =>
      let rd := { c.req.rd with bytesIn := c.req.rd.bytesIn + got.length }
      let c := { c with req := { c.req with rd := rd } }
      if got.length = remains then c.encapsRead cfg t i (buf ++ got)
      else { c with pc := .readEncaps i (buf ++ got) (remains - got.length) }

/-! ## The preview -/

/-- The read of `read_preview_data`. -/
def previewReadStep (c : Run σ) (t : Tick) : Run σ :=
  match waitFor t true false with
  | none => c.reject cfg t .ec408
  | some _ =>
    match c.netDataRead t with
    | (false, c) => c.reject cfg t .ec408
    | (true, c) => { c with pc := .previewParse }

/-- A round of the inner loop of `read_preview_data`. The data go to the preview buffer; at the
end of the preview the read buffer is emptied. -/
def previewParseStep (c : Run σ) (t : Tick) : Run σ :=
  let (ret, w, rd) := parseChunkData c.req.rd
  let c := { c with req := { c.req with rd := rd } }
  let data := (w.getD []).take rd.writeToModulePending
  match ret with
  | .error => c.reject cfg t .ec408
  | .wild => { c with pc := .fault }
  | ret =>
    let b := c.req.previewData
    if b.size - b.data.length < rd.writeToModulePending then c.reject cfg t .ec408
    else
      let c := { c with req := { c.req with
        previewData := { b with data := b.data ++ data }
        rd := { rd with writeToModulePending := 0 } } }
      match ret with
      | .eof =>
        { c with
          req := { c.req with rd := { c.req.rd with pstrblockRead := [] } }
          pc := .preview c.req.rd.eofReceived }
      | .needsMore => { c with pc := .previewRead }
      | _ => { c with pc := .previewParse }

def wantsWholeBody (c : Run σ) : Run σ := { c with hist := { c.hist with wholeBody := true } }

/-- `ec_responce_simple` with `100 Continue`. The client sends the rest of the body when it has
received all of it. -/
def sendContinue (c : Run σ) (t : Tick) : Run σ :=
  let (ok, c) := c.write t .interim (ecResponceSimple .ec100)
  let c := c.setCode .ec100
  if ok then { c with net := { c.net with input := c.net.input ++ c.net.withheld, withheld := [] } }
  else c

/-- The call of the preview handler; without one the service takes the whole body. -/
def callPreview (c : Run σ) (data : Option (List UInt8)) : ModAnswer × Run σ :=
  match c.req.mod.bind (·.checkPreviewHandler) with
  | none => (.continue, c)
  | some handler => c.handled (handler c.svc c.req.view data)

/-- `do_request_preview` behind the reading; `eof` tells whether the preview is all of the
body. -/
def previewStep (c : Run σ) (t : Tick) (eof : Bool) : Run σ :=
  match c.callPreview (some c.req.previewData.data) with
  | (.allow204, c) =>
    match c.respond cfg t .ec204 with
    | (false, c) => c.close
    | (true, c) => c.afterPreview cfg t false
  | (.continue, c) =>
    let c := c.wantsWholeBody
    if eof then c.afterPreview cfg t true else (c.sendContinue t).afterPreview cfg t false
  | (.allow206, c) =>
    if c.req.allow206 then (c.setCode .ec206).afterPreview cfg t false else c.reject cfg t .ec500
  | (_, c) => c.reject cfg t .ec500

/-- The code with which a service that takes the body goes on outside a preview. -/
def continueCode (c : Run σ) : Run σ := c.setCode (if c.req.hasbody then .ec100 else .ec200)

/-- `do_fake_preview` -/
def fakePreviewStep (c : Run σ) (t : Tick) : Run σ :=
  match c.callPreview none with
  | (.continue, c) => c.wantsWholeBody.continueCode.afterPreview cfg t false
  | (.allow204, c) =>
    if c.req.allow204 then
      match c.respond cfg t .ec204 with
      | (false, c) => c.close
      | (true, c) =>
        if c.req.hasbody then c.enterGetSendBody true
        else (c.setCode .ec204).afterPreview cfg t false
    else if !c.req.hasbody then (c.setCode .ec200).afterPreview cfg t false
    else if cfg.fakeAllow204 then
      -- the data are echoed back
      { c.setCode .ec100 with req := { (c.setCode .ec100).req with
        echoBody := some (RingBuf.new 32768) } }.afterPreview cfg t false
    else c.reject cfg t .ec500
  | (.allow206, c) =>
    if c.req.allow204 ∧ c.req.allow206 then (c.setCode .ec206).afterPreview cfg t false
    else c.reject cfg t .ec500
  | (_, c) => c.reject cfg t .ec500

/-! ## The end -/

/-- The entry of `send_remaining_response`, with the data unlocked. -/
def enterSendRest (c : Run σ) : Run σ :=
  let c := { c with req := { c.req with dataLocked := false } }
  if !c.hasServiceIo then c.close
  else if c.req.status = .eof ∧ c.req.block.bytes = [] then c.finish .ok
  else { c with pc := .sendRest }

/-- `do_request` behind `do_end_of_data`. -/
def afterEndOfData (c : Run σ) : Run σ :=
  if c.req.returnCode = some .ec204 then c.finish .ok else c.enterSendRest

/-- `do_end_of_data` -/
def endOfDataStep (c : Run σ) (t : Tick) : Run σ :=
  match c.req.mod.bind (·.endOfDataHandler) with
  | none => c.afterEndOfData
  | some handler =>
    match c.handled (handler c.svc c.req.view) with
    | (.done, c) => c.afterEndOfData
    | (answer, c) =>
      if c.req.status ≠ .nothing then c.close
      else if answer = .allow204 ∧ c.req.allow204 then
        match c.respond cfg t .ec204 with
        | (false, c) => c.close
        | (true, c) => c.afterEndOfData
      else if answer = .allow206 ∧ c.req.allow204 ∧ c.req.allow206 then
        (c.setCode .ec206).afterEndOfData
      else c.reject cfg t .ec500

/-- `send_remaining_response` between two blocks. -/
def restUpdate (c : Run σ) : Run σ :=
  match updateSendStatus cfg c.req with
  | (.ok, req) => { c with req := req, pc := .sendRest }
  | (.eof, req) => { c with req := req }.finish .ok
  | (.error, req) => { c with req := req }.close

/-- The next body data for `send_remaining_response`. -/
def restBody (c : Run σ) : Run σ :=
  match c.serviceIo false ⟨true, maxChunkSize, none, true⟩ with
  | (.error, c) => c.close
  -- a number that is neither a length nor `CI_EOF` is never sent
  | (.ok .bad _, c) => { c with pc := .fault }
  | (.ok .eof _, c) => { c with req := formatBody c.req true }.restUpdate cfg
  | (.ok (.data out) _, c) =>
    if out = [] then c.finish .ok
    else
      let c := { c with
        req := { c.req with block := ⟨.raw, 0, out⟩ }
        hist := { c.hist with produced := c.hist.produced ++ out } }
      { c with req := formatBody c.req false }.restUpdate cfg

/-- A round of the loops of `send_remaining_response`. -/
def sendRestStep (c : Run σ) (t : Tick) : Run σ :=
  if c.req.block.bytes ≠ [] then
    match waitFor t false true with
    | none => c.close
    | some _ =>
      match c.sendCurrentBlock t with
      | (false, c) => c.close
      | (true, c) => c
  else if c.req.status = .body then c.restBody cfg
  else c.restUpdate cfg

/-- A round of the loop of `options_responce`. -/
def sendOptionsStep (c : Run σ) (t : Tick) : Run σ :=
  match waitFor t false true with
  | none => c.finish .ok
  | some _ =>
    match c.sendCurrentBlock t with
    | (false, c) => c.finish .ok
    | (true, c) => if c.req.block.bytes = [] then c.finish .ok else c

/-! ## The machine -/

/-- What the code does from a point on. -/
def advance (c : Run σ) (t : Tick) : Run σ :=
  match c.pc with
  | .start => c.startStep cfg t
  | .readHeader buf back => c.readHeaderStep cfg t buf back
  | .encaps i => c.encapsStep cfg t i
  | .readEncaps i buf remains => c.readEncapsStep cfg t i buf remains
  | .sendOptions => c.sendOptionsStep t
  | .previewRead => c.previewReadStep cfg t
  | .previewParse => c.previewParseStep cfg t
  | .preview eof => c.previewStep cfg t eof
  | .fakePreview => c.fakePreviewStep cfg t
  | .gsbTop l => c.gsbTop cfg t l
  | .gsbInner l => c.gsbInner cfg t l
  | .endOfData => c.endOfDataStep cfg t
  | .sendRest => c.sendRestStep cfg t
  | .finished _ => c
  | .fault => c

/-- After a use of freed memory nothing is defined. -/
def checked (c : Run σ) : Run σ := if c.req.wild then { c with pc := .fault } else c

def step (c : Run σ) (t : Tick) : Run σ := (c.advance cfg t).checked

end Run

/-- `keepalive_request`: the request object for the next request on the connection. With
pipelining the bytes that were read and not used are its first ones. -/
def keepaliveRequest (req : Req σ) : Req σ :=
  if cfg.pipelining then
    { req.reset with rd := { pstrblockRead := req.rd.pstrblockRead } }
  else req.reset

end CIcap
