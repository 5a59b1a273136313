import CIcap.Lib.Chunked
import CIcap.Request.Begin
import CIcap.Request.SendLoop

/-! # What the client receives

The statements about one request, from the first byte of its head on: how many status lines are
written for it, and that the bytes written are a response of the form the protocol asks for. The
request object is new or one that has been reset for the next request of the connection. Both
are read off the invariant of the sending side, under the premises each of them needs.
-/

namespace CIcap

open CText Pieces List

variable {σ : Type} (cfg : Config σ)

/-- The invariant of the sending side holds at the beginning. -/
theorem Req.Idle.sendInv (P : Premises) {req : Req σ} (h : req.Idle) {net : Net}
    (hnet : net.wire = []) (svc : σ) : SendInv P (Run.begin req net svc) := by
  have hb : req.block.bytes = [] := by rw [h.block]; rfl
  have hnone : req.side.trailerNames = none := h.names
  have hpacked : req.side.packed = false := h.packed
  have hready : Ready P req.side := by
    constructor
    · rintro _ (ht | ht) <;> rw [show req.side.type = none from h.type] at ht <;> cases ht
    · intro m hm
      rw [show req.side.mod = none from h.mod] at hm
      cases hm
    · intro _
      simp [Headers.announces, Headers.texts, show req.side.xheaders.lines = [] from h.xheaders]
    all_goals simp [hnone, hpacked]
  refine ⟨[], [], [], ⟨?_, ?_, ?_, ?_, .inl rfl, fun _ _ => rfl⟩, ⟨⟨rfl, h.status, hb, h.packed,
    h.echo, hready⟩, h.names⟩⟩
  · rw [show (Run.begin req net svc).net.final = [] by simp [Run.begin, Net.final, hnet]]
    exact Writes.nil (Block.out_of_nil hb)
  · change Queue P req.side req.status [] []
    rw [h.status]
    exact .nothing h.body
  · exact (Block.raw_of_nil hb).symm
  · change req.block.src ≠ .interim
    rw [h.block]
    rintro ⟨⟩

/-- What the invariant says about a run from the beginning. -/
theorem Begins.run_sendInv {cfg : Config σ} (P : Premises) (hcfg : cfg.ServicesOk P) {req : Req σ}
    (h : Begins cfg req) {net : Net} (hnet : net.wire = []) (svc : σ) {ts : List Tick}
    (hok : Machine.AllSteps (Run.step cfg) (fun c _ => StepOk P c) (.begin req net svc) ts) :
    SendInv P (Machine.run (Run.step cfg) (.begin req net svc) ts) :=
  CIcap.run_sendInv cfg hcfg (h.idle.sendInv P hnet svc) hok

/-! ## Status lines -/

def BlockSrc.isHead : BlockSrc → Bool
  | .head _ => true
  | _ => false

/-- How many final status lines have been written, in whole or in part. -/
def Net.statusLines (n : Net) : Nat := (started n.wire).countP BlockSrc.isHead

/-- While a body is only read, the data of the response are locked. -/
def Run.DrainsLocked (c : Run σ) : Prop :=
  match c.pc with
  | .gsbTop l | .gsbInner l => l.parseOnly = true → c.req.dataLocked = true
  | _ => True

instance (c : Run σ) : Decidable c.DrainsLocked := by
  unfold Run.DrainsLocked
  split <;> infer_instance

theorem Net.statusLines_eq (n : Net) : n.statusLines = (started n.final).countP BlockSrc.isHead := by
  unfold Net.statusLines Net.final started
  rw [countP_map, countP_map, countP_filter, countP_filter, countP_filter]
  apply countP_congr
  intro s _
  cases h : s.src <;> simp [BlockSrc.isHead, h]

variable {P : Premises} {s : Side σ} {cs : List (List UInt8)} {q : List QBlock}

theorem Queue.one_head {status : SendStatus} (h : Queue P s status cs q) :
    (q.map Prod.fst).countP BlockSrc.isHead ≤ 1 := by
  have hes : ∀ es : List QBlock, (∀ q ∈ es, ∃ k, q.1 = .entity k) →
      (es.map Prod.fst).countP BlockSrc.isHead = 0 := by
    intro es h
    rw [countP_eq_zero]
    simp only [mem_map, forall_exists_index, and_imp]
    rintro _ b hb rfl
    obtain ⟨k, hk⟩ := h b hb
    simp [hk, BlockSrc.isHead]
  have hcs : ∀ cs : List (List UInt8),
      ((cs.map chunkBlock).map Prod.fst).countP BlockSrc.isHead = 0 := by
    intro cs
    rw [countP_eq_zero]
    simp [chunkBlock, BlockSrc.isHead]
  have hhead : BlockSrc.isHead s.head.1 = true := rfl
  induction h with
  | nothing => simp
  | heads _ _ he => simp [hes _ he.src, hhead]
  | body _ _ he => simp only [map_cons, map_append, countP_cons, countP_append,
      hes _ he.src, hcs, hhead]; decide
  | closed _ _ he => simp only [map_cons, map_append, countP_cons,
      countP_append, hes _ he.src, hcs, hhead]; decide
  | bodiless _ _ he => simp [hes _ he.src, hhead]
  | simple => simp [BlockSrc.isHead]
  | trailers _ _ _ _ _ ih =>
    rw [map_append, countP_append]
    simpa [BlockSrc.isHead] using ih

/-- Only the drain of a body can come behind a head: the blocks of a response have one head. -/
theorem Sent.one_head {wire : List Seg} {produced : List UInt8}
    {pre : List QBlock} (h : Sent P s wire produced pre cs q)
    (hl : P.locked) : ((pre ++ q).map Prod.fst).countP BlockSrc.isHead ≤ 1 := by
  rcases h.pre_ok with rfl | ⟨head, out, rfl, -⟩
  · exact h.queue.one_head
  · rw [h.pre_locked hl (by simp)]
    rfl

/-- **One status line.** In a run in which the data are locked whenever a body is only read, at
most one final status line is written for the request. -/
theorem one_status_line {req : Req σ} (hreq : Begins cfg req) {net : Net} (hnet : net.wire = [])
    (svc : σ) (ts : List Tick)
    (hok : Machine.AllSteps (Run.step cfg) (fun c _ => c.DrainsLocked) (.begin req net svc) ts) :
    (Machine.run (Run.step cfg) (.begin req net svc) ts).net.statusLines ≤ 1 := by
  have hinv : SendInv ⟨False, False, True, False, False⟩
      (Machine.run (Run.step cfg) (.begin req net svc) ts) := by
    refine hreq.run_sendInv _ (fun m _ => ⟨False.elim, False.elim, False.elim⟩) hnet svc ?_
    refine Machine.AllSteps.imp (fun c _ hc => ?_) hok
    refine ⟨fun _ l hpc hl => ?_, fun _ => ⟨False.elim, False.elim, False.elim⟩, False.elim⟩
    unfold Run.DrainsLocked at hc
    rcases hpc with hpc | hpc <;> rw [hpc] at hc <;> exact hc hl
  obtain ⟨pre, cs, q, hs, -⟩ := hinv
  rw [Net.statusLines_eq]
  exact hs.writes.started_sublist.countP_le.trans (hs.one_head trivial)

/-- A service that makes some calls when a request begins and never changes anything. -/
def passService (calls : List ApiCall) : Service Unit where
  modName := bytes "pass"
  supports _ := true
  istag := bytes "1"
  initRequestData := some fun _ _ => ((), calls)
  checkPreviewHandler := some fun _ _ _ => (.allow204, (), [])

/-- A connection with a REQMOD request, its `Allow` header and the bytes of its body. -/
def reqmodNet (allow body : List UInt8) : Net where
  input := bytes "REQMOD icap://h/s ICAP/1.0" ++ crlf ++ bytes "Allow: " ++ allow ++ crlf ++
    bytes "Encapsulated: req-body=0" ++ crlf ++ crlf ++ body

/-- The body of a request that the service has answered with 204 is read with the data locked. -/
theorem one_status_line_pass : let c := Run.begin .alloc (reqmodNet (bytes "204") (bytes "1")) ()
    let ts := [tick 0 0, tick 69 0, tick 0 0, tick 0 512, tick 1 0, tick 0 0, tick 0 512]
    Machine.AllSteps (Run.step (.only (passService []))) (fun c _ => c.DrainsLocked) c ts ∧
      (Machine.run (Run.step (.only (passService []))) c ts).net.statusLines ≤ 1 := by
  intro c ts
  have hok : Machine.AllSteps (Run.step (.only (passService [])))
      (fun c _ => c.DrainsLocked) c ts := by decide +kernel
  exact ⟨hok, one_status_line _ (.inl rfl) rfl () ts hok⟩

/-- A service that unlocks the data and then answers with 204 outside a preview gets a second
response, begun while the body is read. -/
theorem second_status_line : (Machine.run (Run.step (.only (passService [.unlockData])))
      (.begin .alloc (reqmodNet (bytes "204") (bytes "1")) ())
      [tick 0 0, tick 69 0, tick 0 0, tick 0 512, tick 1 0, tick 0 0, tick 0 512]).net.statusLines
        = 2 := by
  decide +kernel

/-! ## The bytes of a response -/

/-- The next block of the response may be prepared in this step. -/
def Run.updates (c : Run σ) : Bool :=
  match c.pc with
  | .gsbTop _ => !c.req.dataLocked
  | .sendRest => true
  | _ => false

/-- When the head of a response that has promised trailers is built, the index of the header
list has room for its lines. -/
def Run.HeadHasRoom (c : Run σ) : Prop :=
  c.updates = true → c.req.status = .nothing → c.req.trailerNames.isSome = true →
    c.req.responseHeader.reset.Room (c.req.xheaders.lines.length + 6)

instance (c : Run σ) : Decidable c.HeadHasRoom := by
  unfold Run.HeadHasRoom Headers.Room
  infer_instance

theorem Run.updates_iff (c : Run σ) :
    c.updates = true ↔ ((∃ l, c.pc = .gsbTop l) ∧ c.req.dataLocked = false) ∨ c.pc = .sendRest := by
  unfold Run.updates
  cases c.pc <;> simp

def Req.headerBlocks (req : Req σ) : List UInt8 :=
  (req.entities.takeWhile Entity.isHdr).flatMap (·.headers.buf)

theorem chunkBlocks_eq (h : ∀ d ∈ cs, d ≠ []) :
    ∃ chunks, (cs.map chunkBlock).flatMap Prod.snd = Chunked.enc chunks ∧
      Chunked.body chunks = cs.flatten := by
  induction cs with
  | nil => exact ⟨[], rfl, rfl⟩
  | cons d cs ih =>
    obtain ⟨chunks, he, hb⟩ := ih (forall_mem_cons.mp h).2
    refine ⟨.ofData d (h d mem_cons_self) :: chunks, ?_, ?_⟩
    · rw [map_cons, flatMap_cons, he]
      rfl
    · rw [Chunked.body_cons, hb]
      rfl

theorem AllEntityBlocks.flatMap {es : List QBlock} (h : AllEntityBlocks P s es) (hk : P.keeps) :
    es.flatMap Prod.snd = (s.entities.takeWhile Entity.isHdr).flatMap (·.headers.buf) := by
  rw [flatMap_def, h.eq hk, flatMap_def]

/-- The blocks queued for a response whose body has ended. -/
theorem Queue.closed_bytes (hk : P.keeps) {r : Req σ}
    (h : Queue P r.side .eof cs q) (hb : r.responceHasbody = true) :
    ∃ chunks last, q.flatMap Prod.snd = r.responseHeader.buf ++ r.headerBlocks ++
      Chunked.enc chunks ++ last ∧ Chunked.body chunks = cs.flatten ∧ IsLastChunk last := by
  cases h with
  | heads _ hi => cases hi
  | bodiless _ hb' | simple hb' => cases hb.symm.trans hb'
  | @closed _ es last _ _ he hc hl =>
    obtain ⟨chunks, henc, hbody⟩ := chunkBlocks_eq hc
    refine ⟨chunks, last, ?_, hbody, hl⟩
    simp only [flatMap_cons, flatMap_append, flatMap_nil, append_nil, henc,
      he.flatMap hk, Req.headerBlocks, append_assoc]
    rfl

/-- A service that answers every request with the same two bytes. -/
def helloService : Service Bool where
  modName := bytes "hello"
  supports _ := true
  istag := bytes "1"
  serviceIo := some fun said _ a =>
    if said then (.ok .eof (some (a.wdata.getD []).length), true, [])
    else if a.room = 0 then (.ok (.data []) (some (a.wdata.getD []).length), false, [])
    else (.ok (.data (bytes "hi")) (some (a.wdata.getD []).length), true, [])

theorem helloService_ok : helloService.Keeps ∧ helloService.Productive := by
  refine ⟨⟨nofun, ?_⟩, ?_⟩
  · rintro _ ⟨⟩ said v x _ a ha
    dsimp only at ha
    split_ifs at ha <;> cases ha
  · rintro _ ⟨⟩ said v x _ hroom took
    dsimp only
    split_ifs
    · nofun
    · omega
    · simp [bytes]

/-- A service that adds `n` headers and promises trailers when the body has ended. -/
def floodService (n : Nat) : Service Unit where
  modName := bytes "flood"
  supports _ := true
  istag := bytes "1"
  endOfDataHandler := some fun _ _ =>
    (.done, (), replicate n (.addXheader (bytes "X: 1")) ++ [.promiseTrailers (bytes "T")])
  serviceIo := some fun _ _ a => (.ok .eof (some (a.wdata.getD []).length), (), [])

theorem floodService_ok (n : Nat) : (floodService n).Keeps ∧ (floodService n).Productive := by
  refine ⟨⟨?_, ?_⟩, ?_⟩
  · rintro _ ⟨⟩ _ _ _ a ha
    rcases mem_append.mp ha with h | h
    · rw [eq_of_mem_replicate h]
      rfl
    · rw [mem_singleton.mp h]
      rfl
  · rintro _ ⟨⟩ _ _ _ _ a ha
    cases ha
  · rintro _ ⟨⟩ _ _ _ _ _ _
    nofun

def floodTicks : List Tick :=
  sampleTicks ++ [tick 0 0, tick 0 0, tick 5 0, tick 0 0, tick 0 0, tick 0 0, tick 0 20000, tick 0 0,
    tick 0 0, tick 0 5, tick 0 0, tick 0 xEmptyTrailer.length, tick 0 0]

/-- A request to that service, whose response has 2043 headers: the index of the head is full before
the trailers are announced. -/
def floodRun : Run Unit :=
  Machine.run (Run.step (.only (floodService 2043)))
    (.begin .alloc { input := sampleHead ++ (bytes "0" ++ crlf ++ crlf) } ()) floodTicks

set_option maxRecDepth 4000 in
theorem floodRun_end :
    floodRun.pc.result = some .ok ∧ floodRun.req.responceHasbody = true ∧
    floodRun.req.returnCode ≠ some .ec204 ∧ floodRun.hist.produced = [] ∧
    floodRun.req.responseHeader.announces = false ∧
    content floodRun.net.final = floodRun.req.responseHeader.buf ++ floodRun.req.headerBlocks ++
      ((bytes "0" ++ crlf ++ crlf) ++ xEmptyTrailer) := by
  decide +kernel

/-- Trailers that the head does not announce are not those of a response. -/
theorem not_written {c : Run σ} (hproduced : c.hist.produced = [])
    (hann : c.req.responseHeader.announces = false)
    (hwire : content c.net.final = c.req.responseHeader.buf ++ c.req.headerBlocks ++
      ((bytes "0" ++ crlf ++ crlf) ++ xEmptyTrailer)) :
    ¬ ∃ (chunks : List Chunked.Chunk) (last trailers : List UInt8),
      content c.net.final = c.req.responseHeader.buf ++ c.req.headerBlocks ++
        Chunked.enc chunks ++ last ++ trailers ∧
      Chunked.body chunks = c.hist.produced ∧ IsLastChunk last ∧
      (trailers ≠ [] → c.req.responseHeader.announces = true) := by
  rintro ⟨chunks, last, trailers, hcontent, hbody, hlast, htrail⟩
  have hchunks : chunks = [] := by
    cases chunks with
    | nil => rfl
    | cons k ks => exact absurd (append_eq_nil_iff.mp (hbody.trans hproduced)).1 k.data_ne
  have htail : (bytes "0" ++ crlf ++ crlf) ++ xEmptyTrailer = last ++ trailers := by
    rw [hwire, hchunks, Chunked.enc_nil, append_nil, append_assoc _ last] at hcontent
    exact append_cancel_left hcontent
  rcases hlast with rfl | ⟨k, rfl⟩
  · have ht := append_cancel_left htail
    have hyes := htrail (by rw [← ht]; decide)
    exact Bool.false_ne_true (hann.symm.trans hyes)
  · have h2 := congrArg (fun l => l[1]?) htail
    simp [bytes, crlf] at h2

end CIcap
