import CIcap.Request.ReceiveBody

/-! # What becomes of the bytes of a request

The statements about a whole request that the invariant of the receiving side gives: a service
that asks for the whole body is given each byte of it once and in order, and the server takes no
byte of the request that follows. Each needs that the server does not do one of the things that
go wrong: `parsesAgain`, `leavesPending`, `dropsBytes` and `skipsBody`.
-/

namespace CIcap

open CText Chunked

variable {σ : Type} (cfg : Config σ)

/-! ## What goes wrong -/

namespace Run

/-- The chunk parser is going to be called behind the last chunk, on bytes of the next request. -/
def parsesAgain (c : Run σ) : Bool :=
  match c.pc with
  | .gsbInner _ => c.req.rd.eofReceived && decide (c.req.rd.writeToModulePending = 0) &&
      decide (c.req.rd.pstrblockRead ≠ [])
  | _ => false

/-- `get_send_body` has been left while data of the body wait for the service. -/
def leavesPending (c : Run σ) : Bool :=
  match c.pc with
  | .endOfData => decide (c.req.rd.writeToModulePending ≠ 0)
  | _ => false

/-- The preview is going to end while the read buffer holds bytes of the next request. -/
def dropsBytes (c : Run σ) : Bool :=
  match c.pc with
  | .previewParse =>
    match parseChunkData c.req.rd with
    | (.eof, _, rd) => decide (rd.pstrblockRead ≠ [])
    | _ => false
  | _ => false

/-- A request without preview is going to be answered with 206 although its body has not been
read. -/
def skipsBody (c : Run σ) : Bool :=
  match c.pc with
  | .fakePreview => c.req.hasbody && decide ((c.callPreview none).1 = .allow206) &&
      c.req.allow204 && c.req.allow206
  | _ => false

theorem reads_of {c : Run σ} {P Q : Prop} (honce : c.parsesAgain = false)
    (hdrop : P → c.dropsBytes = false ∧ c.skipsBody = false) (htaken : Q → c.leavesPending = false) :
    Reads P Q c where
  once := by
    intro l hpc heof hpend
    unfold parsesAgain at honce
    rw [hpc] at honce
    simpa [heof, hpend] using honce
  preview := by
    intro hP hpc w rd hcall
    have h := (hdrop hP).1
    unfold dropsBytes at h
    rw [hpc] at h
    simpa [hcall] using h
  body := by
    rintro hP hpc hbody hanswer ⟨h204, h206⟩
    have h := (hdrop hP).2
    unfold skipsBody at h
    rw [hpc] at h
    simp [hbody, hanswer, h204, h206] at h
  taken := by
    intro hQ hpc
    have h := htaken hQ
    unfold leavesPending at h
    rw [hpc] at h
    simpa using h

end Run

/-! ## A request and what follows it -/

/-- The server begins with a request that the client sends as `m`; the bytes `next` follow. -/
structure Arrives (m : Message) (next : List UInt8) (req : Req σ) (net : Net) : Prop where
  begins : Begins cfg req
  wellFormed : m.WellFormed cfg req
  sent : req.rd.pstrblockRead ++ net.input = m.sent next
  withheld : net.withheld = m.body.later next

section Runs

variable {cfg} {P Q : Prop} {m : Message} {next : List UInt8} {req : Req σ} {net : Net}

theorem Begins.previewData (h : Begins cfg req) : req.previewData.data = [] := by
  rcases h with rfl | ⟨old, rfl⟩
  · rfl
  · unfold keepaliveRequest
    split_ifs <;> rfl

theorem Begins.pipelining (h : Begins cfg req) :
    cfg.pipelining = true ∨ req.rd.pstrblockRead = [] := by
  rcases h with rfl | ⟨old, rfl⟩
  · exact .inr rfl
  · unfold keepaliveRequest
    split_ifs with hp
    · exact .inl hp
    · exact .inr rfl

variable (h : Arrives cfg m next req net)
include h

theorem Arrives.received (svc : σ) : Received cfg P Q req m next (.begin req net svc) := by
  have hrd := h.begins.idle.rd
  refine ⟨⟨req.rd, rfl⟩, ⟨?_, ?_, ?_, h.begins.previewData, rfl, rfl, h.withheld⟩, h.sent,
    h.begins.pipelining⟩
  · show req.rd.currentChunkLen = req.rd.chunkBytesRead
    rw [hrd]
  · show req.rd.writeToModulePending = 0
    rw [hrd]
  · show req.rd.eofReceived = false
    rw [hrd]

theorem Arrives.over (svc : σ) {ts : List Tick}
    (hok : Machine.AllSteps (Run.step cfg) (fun c _ => Reads P Q c) (.begin req net svc) ts) {c : Run σ}
    (hc : c = Machine.run (Run.step cfg) (.begin req net svc) ts) (hend : c.pc = .finished .ok) :
    c.intake.Over P Q m.body next := by
  have hinv : Received cfg P Q req m next c := by
    rw [hc]
    exact Machine.run_inv (P := Received cfg P Q req m next)
      (fun c t hc hreads => step_received cfg h.wellFormed hc hreads t) (h.received svc) hok
  unfold Received at hinv
  rw [hend] at hinv
  exact hinv

end Runs

/-! ## Samples -/

/-- A service that asks for the whole body, takes at most `n` bytes in a call and sends no data. -/
def storeService (n : Nat) : Service Unit where
  modName := bytes "store"
  supports _ := true
  istag := bytes "1"
  checkPreviewHandler := some fun _ _ _ => (.continue, (), [])
  endOfDataHandler := some fun _ _ => (.done, (), [])
  serviceIo := some fun _ _ a => (.ok .eof (some (min n (a.wdata.getD []).length)), (), [])

/-- The head of a REQMOD request with a body, with more lines in it. -/
def reqmodHead (lines : List UInt8) : List UInt8 :=
  bytes "REQMOD icap://h/s ICAP/1.0" ++ crlf ++ lines ++ bytes "Encapsulated: req-body=0" ++ crlf ++ crlf

def wholeMessage (k : Chunk) : Message where
  head := reqmodHead []
  blocks := []
  body := .whole [k]

/-- A request with a body in one chunk that is all of a preview. -/
def previewMessage (k : Chunk) : Message where
  head := reqmodHead (bytes "Preview: 4" ++ crlf)
  blocks := []
  body := .preview [k] none

theorem wholeMessage_arrives {k : Chunk} (hk : ChunkFits k) (next : List UInt8) :
    Arrives (.only (storeService 2)) (wholeMessage k) next .alloc
      { input := (wholeMessage k).sent next } where
  begins := .inl rfl
  wellFormed := by
    have hhead : findEoh (reqmodHead []) = some ((reqmodHead []).length - 4) := by decide +kernel
    have hblocks : headerBytes (parseHead (.only (storeService 2)) .alloc (reqmodHead [])).2.entities =
        some ([] : List UInt8).length := by decide +kernel
    have hbody : (parseHead (.only (storeService 2)) .alloc (reqmodHead [])).2.hasbody = true := by
      decide +kernel
    have hpreview : (parseHead (.only (storeService 2)) .alloc (reqmodHead [])).2.preview < 0 := by
      decide +kernel
    have htype : (parseHead (.only (storeService 2)) .alloc (reqmodHead [])).2.type ≠ some .options := by
      decide +kernel
    exact Message.wellFormed_of _ hhead hblocks ⟨⟨fun _ => nofun, fun _ => hbody⟩, nofun,
      fun _ _ => hpreview, fun h => absurd h htype⟩ fun k' hk' => List.mem_singleton.mp hk' ▸ hk
  sent := rfl
  withheld := rfl

theorem previewMessage_arrives {k : Chunk} (hk : ChunkFits k) (next : List UInt8) :
    Arrives (.only (storeService 2)) (previewMessage k) next .alloc
      { input := (previewMessage k).sent next } where
  begins := .inl rfl
  wellFormed := by
    have hhead : findEoh (reqmodHead (bytes "Preview: 4" ++ crlf)) =
        some ((reqmodHead (bytes "Preview: 4" ++ crlf)).length - 4) := by decide +kernel
    have hblocks : headerBytes (parseHead (.only (storeService 2)) .alloc
        (reqmodHead (bytes "Preview: 4" ++ crlf))).2.entities =
          some ([] : List UInt8).length := by decide +kernel
    have hbody : (parseHead (.only (storeService 2)) .alloc
        (reqmodHead (bytes "Preview: 4" ++ crlf))).2.hasbody = true := by decide +kernel
    have hpreview : 0 ≤ (parseHead (.only (storeService 2)) .alloc
        (reqmodHead (bytes "Preview: 4" ++ crlf))).2.preview := by decide +kernel
    have htype : (parseHead (.only (storeService 2)) .alloc
        (reqmodHead (bytes "Preview: 4" ++ crlf))).2.type ≠ some .options := by decide +kernel
    exact Message.wellFormed_of _ hhead hblocks ⟨⟨fun _ => nofun, fun _ => hbody⟩,
      fun _ _ _ => hpreview, nofun, fun h => absurd h htype⟩
      fun k' hk' => List.mem_singleton.mp hk' ▸ hk
  sent := rfl
  withheld := rfl

def abChunk : Chunk := .ofData (bytes "ab") (by decide)

def abcChunk : Chunk := .ofData (bytes "abc") (by decide)

theorem abChunk_fits : ChunkFits abChunk := ⟨by decide, by decide⟩

theorem abcChunk_fits : ChunkFits abcChunk := ⟨by decide, by decide⟩

/-- Steps in which the connection takes and gives all that is asked for. -/
def freeTicks (n : Nat) : List Tick := List.replicate n (tick 512 4096)

/-! ## The body reaches the service -/

/-- What the connection delivers after the response. A client that was not asked for the rest
behind its preview sends the next request instead. -/
def Net.resumed (n : Net) (next : List UInt8) : List UInt8 :=
  if n.withheld = [] then n.input else n.input ++ next

/-- **Pipelining.** When a request has been processed without an error, the request object for the
next one and the connection hold exactly the bytes of the next request. The parser is not called
behind the last chunk, no bytes stand behind a preview when it ends, and no request whose body has
not been read is answered with 206. -/
theorem next_request_kept (hpipe : cfg.pipelining = true) {m : Message} {next : List UInt8}
    {req : Req σ} {net : Net} (h : Arrives cfg m next req net) (svc : σ) (ts : List Tick)
    (hok : Machine.AllSteps (Run.step cfg)
      (fun c _ => c.parsesAgain = false ∧ c.dropsBytes = false ∧ c.skipsBody = false)
      (.begin req net svc) ts)
    {c : Run σ} (hc : c = Machine.run (Run.step cfg) (.begin req net svc) ts)
    (hend : c.pc = .finished .ok) :
    (keepaliveRequest cfg c.req).rd.pstrblockRead ++ c.net.resumed next = next := by
  have hreads : Machine.AllSteps (Run.step cfg) (fun c _ => Reads True False c)
      (.begin req net svc) ts :=
    hok.imp fun c _ hc => Run.reads_of hc.1 (fun _ => hc.2) False.elim
  have hover := h.over svc hreads hc hend
  unfold keepaliveRequest Net.resumed
  rw [if_pos hpipe]
  rcases hover.bytes trivial with ⟨hs, hheld⟩ | ⟨hs, -, hheld⟩
  · rw [if_pos (show c.net.withheld = [] from hheld)]
    exact hs
  · obtain ⟨hbuf, hin⟩ := List.append_eq_nil_iff.mp hs
    rw [if_neg (show c.net.withheld ≠ [] from hheld)]
    rw [show c.req.rd.pstrblockRead = [] from hbuf, show c.net.input = [] from hin]
    rfl

/-- A request in front of another one. -/
theorem next_request_kept_ab :
    let c := Machine.run (Run.step (.only (storeService 2)))
      (.begin .alloc { input := (wholeMessage abChunk).sent (bytes "OPTIONS") } ()) (freeTicks 13)
    (keepaliveRequest (.only (storeService 2)) c.req).rd.pstrblockRead ++
      c.net.resumed (bytes "OPTIONS") = bytes "OPTIONS" :=
  next_request_kept _ rfl (wholeMessage_arrives abChunk_fits (bytes "OPTIONS")) () (freeTicks 13)
    (by decide +kernel) rfl (Pc.eq_finished (by decide +kernel))

/-- A preview with all of the body and the beginning of the next request arrive in one read; the
bytes of the next request are lost. -/
theorem next_request_dropped :
    Arrives (.only (storeService 2)) (previewMessage abChunk) (bytes "OPTIONS") .alloc
      { input := (previewMessage abChunk).sent (bytes "OPTIONS") } ∧
    let c := Machine.run (Run.step (.only (storeService 2)))
      (.begin .alloc { input := (previewMessage abChunk).sent (bytes "OPTIONS") } ()) (freeTicks 13)
    c.pc = .finished .ok ∧ c.req.keepalive = true ∧
      (keepaliveRequest (.only (storeService 2)) c.req).rd.pstrblockRead ++
        c.net.resumed (bytes "OPTIONS") = [] :=
  ⟨previewMessage_arrives abChunk_fits _, Pc.eq_finished (by decide +kernel), by decide +kernel, by decide +kernel⟩

/-! ## The keep-alive loop of `thread_main` -/

/-- What the environment decides in a round: the steps of `process_request`, whether `to_be_killed`
is set before it and `IMMEDIATELY` after it, and whether `wait_for_data` finds more. -/
structure Conn.Round where
  ticks : List Tick
  killed : Bool := false
  killedNow : Bool := false
  ready : Bool := true

/-- What a client sends at once. -/
def sentAll : List Message → List UInt8
  | [] => []
  | m :: ms => m.sent (sentAll ms)

/-- A connection with what has been served on it (`keepalive_reqs`). -/
structure Conn (σ : Type) where
  req : Req σ := .alloc
  input : List UInt8
  svc : σ
  coming : List Message
  served : List (Message × Run σ) := []
  closed : Bool := false

namespace Conn

def opened (ms : List Message) (svc : σ) : Conn σ where
  input := sentAll ms
  svc := svc
  coming := ms

variable (max : Int) (s : Conn σ) (r : Round)

/-- The connection is not kept behind enough requests or when the process is to end. -/
def lastRound : Bool := decide (0 < max ∧ max ≤ s.served.length) || r.killed

/-- The processing of a message with others behind it. -/
def begin (m : Message) (ms : List Message) : Run σ :=
  .begin (if s.lastRound max r then { s.req with keepalive := false } else s.req)
    { input := s.input, withheld := m.body.later (sentAll ms) } s.svc

/-- A round of the loop. A request whose head could not be read is not counted. -/
def step : Conn σ :=
  match s.closed, s.coming with
  | false, m :: ms =>
    let c := Machine.run (Run.step cfg) (s.begin max r m ms) r.ticks
    let req := keepaliveRequest cfg c.req
    if c.pc.result = none ∨ c.pc.result = some .error ∧ c.req.rd.requestBytesIn = 0 then
      { s with closed := true }
    else
      { req := req
        input := c.net.resumed (sentAll ms)
        svc := c.svc
        coming := ms
        served := s.served ++ [(m, c)]
        closed := r.killedNow || !c.req.keepalive ||
          (decide (req.rd.pstrblockRead = []) && !r.ready) }
  | _, _ => s

/-- A round in which a well-formed request is processed without an error and without one of the
things that lose bytes. -/
def Clean : Prop :=
  s.lastRound max r = false ∧ ∀ m ms, s.coming = m :: ms → m.WellFormed cfg s.req ∧
    Machine.AllSteps (Run.step cfg) (fun c _ => c.parsesAgain = false ∧ c.leavesPending = false ∧
      c.dropsBytes = false ∧ c.skipsBody = false) (s.begin max r m ms) r.ticks ∧
    (Machine.run (Run.step cfg) (s.begin max r m ms) r.ticks).pc.result = some .ok

/-- The requests are served in order, a service that asked for its body has been given it, and the
bytes of the requests to come are all there. -/
structure InOrder (ms : List Message) : Prop where
  begins : Begins cfg s.req
  order : s.served.map Prod.fst ++ s.coming = ms
  bytes : s.req.rd.pstrblockRead ++ s.input = sentAll s.coming
  bodies : ∀ p ∈ s.served, p.2.hist.wholeBody = true →
    p.2.req.previewData.data ++ p.2.hist.accepted = p.1.body.data

variable {cfg max}

theorem InOrder.step (hpipe : cfg.pipelining = true) {ms : List Message} (h : s.InOrder cfg ms)
    (hr : s.Clean cfg max r) : (s.step cfg max r).InOrder cfg ms := by
  unfold Conn.step
  split
  · rename_i m rest _ hcoming
    obtain ⟨hwf, hgood, hok⟩ := hr.2 m rest hcoming
    have hbegin : s.begin max r m rest =
        .begin s.req { input := s.input, withheld := m.body.later (sentAll rest) } s.svc := by
      unfold Conn.begin
      rw [hr.1]
      rfl
    rw [hbegin] at hgood hok ⊢
    have harrives : Arrives cfg m (sentAll rest) s.req
        { input := s.input, withheld := m.body.later (sentAll rest) } :=
      ⟨h.begins, hwf, by rw [h.bytes, hcoming]; rfl, rfl⟩
    have hover := harrives.over (P := True) (Q := True) s.svc (hgood.imp fun c _ hc =>
      Run.reads_of hc.1 (fun _ => hc.2.2) fun _ => hc.2.1) rfl (Pc.eq_finished hok)
    generalize Machine.run _ _ _ = c at hover hok
    dsimp only
    rw [if_neg (by simp [hok])]
    refine ⟨.inr ⟨_, rfl⟩, ?_, ?_, ?_⟩
    · rw [← h.order, hcoming]
      simp
    · unfold keepaliveRequest Net.resumed
      rw [if_pos hpipe]
      rcases hover.bytes trivial with ⟨hs, hheld⟩ | ⟨hs, -, hheld⟩
      · rw [if_pos (show c.net.withheld = [] from hheld)]
        exact hs
      · obtain ⟨hbuf, hin⟩ := List.append_eq_nil_iff.mp hs
        rw [if_neg (show c.net.withheld ≠ [] from hheld)]
        rw [show c.req.rd.pstrblockRead = [] from hbuf, show c.net.input = [] from hin]
        rfl
    · intro p hp hwhole
      rcases List.mem_append.mp hp with hp | hp
      · exact h.bodies p hp hwhole
      · obtain rfl := List.mem_singleton.mp hp
        obtain ⟨lost, hdata, hlen⟩ := hover.data hwhole
        rw [hover.nothing trivial hwhole] at hlen
        rw [List.length_eq_zero_iff.mp hlen.symm, List.append_nil] at hdata
        exact hdata
  · exact h

end Conn

end CIcap
