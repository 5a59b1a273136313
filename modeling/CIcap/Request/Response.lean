import CIcap.Request.Send

/-! # The sending side along a run

`SendInv` says for every point of the code what has been sent and what is known about the
request there. `step_sendInv` carries it through a step of the server, for every input of the
environment and every service that meets the premises.
-/

namespace CIcap

open CText Pieces

variable {σ : Type} (cfg : Config σ) (P : Premises)

/-! ## The invariant -/

/-- Nothing of a response has been sent or prepared. -/
structure Early (c : Run σ) (pre : List QBlock) : Prop where
  pre : pre = []
  status : c.req.status = .nothing
  block : c.req.block.bytes = []
  packed : c.req.packed = false
  echo : c.req.echoBody = none
  ready : Ready P c.req.side

/-- A response is being sent or may begin. -/
structure Active (c : Run σ) : Prop where
  ready : Ready P c.req.side
  type : c.req.side.IsMod
  idle : c.req.status = .nothing → c.req.block.bytes = [] ∧ c.req.packed = false

/-- A response was written at once. -/
structure Simple (c : Run σ) : Prop where
  status : c.req.status = .eof
  block : c.req.block.bytes = []
  body : c.req.responceHasbody = false
  silent : P.trailers → c.req.responseHeader.announces = false

/-- `get_send_body` is running. -/
structure InBody (c : Run σ) (l : Gsb) (pre : List QBlock) : Prop extends Active P c where
  packed : c.req.status ≠ .nothing → c.req.packed = true
  pre_nil : l.parseOnly = false → pre = []
  pre_drain : l.parseOnly = true → pre ≠ []
  code : l.parseOnly = false → c.req.side.Successful

/-- The body of the request has been received. -/
structure AfterBody (c : Run σ) (pre : List QBlock) : Prop extends Active P c where
  pre : pre = []
  raw : Block.raw c.req.block = []
  code : c.req.side.Successful
  echo : c.req.echoBody.isSome = true → c.req.rd.eofReceived = true

/-- The request has been processed. -/
structure Ended (c : Run σ) (ret : Ret) (pre q : List QBlock) : Prop where
  complete : ret = .ok → c.req.responceHasbody = true → c.req.returnCode ≠ some .ec204 →
    pre = [] ∧ c.req.block.bytes = [] ∧ c.req.side.Successful ∧
      (c.req.status = .eof ∨ c.req.status = .trailers ∨ c.req.status = .body ∧ ¬ P.productive)
  trailers : ret = .ok → P.trailers → P.locked → P.productive →
    (∃ h out, (.head h, out) ∈ pre ++ q ∧ h.announces = true) →
      c.req.block.bytes = [] ∧ ∃ tb, tb ≠ [] ∧ (.trailers, tb) ∈ q

/-- What is known at a point of the code. -/
def Stage (c : Run σ) (pre q : List QBlock) : Prop :=
  match c.pc with
  | .start | .readHeader _ _ => Early P c pre ∧ c.req.trailerNames = none
  | .encaps _ | .readEncaps _ _ _ => Early P c pre
  | .previewRead | .previewParse => Early P c pre ∧ c.req.side.IsMod ∧ c.req.hasbody = true
  | .preview eof => Early P c pre ∧ c.req.side.IsMod ∧ (eof = false → c.req.hasbody = true)
  | .fakePreview => Early P c pre ∧ c.req.side.IsMod
  | .sendOptions => pre ≠ [] ∧ q = [] ∧ Block.raw c.req.block = [] ∧ c.req.status = .nothing
  | .gsbTop l => InBody P c l pre ∧ Block.raw c.req.block = []
  | .gsbInner l => InBody P c l pre ∧
      (l.hasFormatedData = true → Block.raw c.req.block = []) ∧
      (l.hasFormatedData = false → (Block.out c.req.block).bytes = [] ∧
        (c.req.status ≠ .body → c.req.block.bytes = []))
  | .endOfData => AfterBody P c pre ∧
      ((c.req.status ≠ .nothing → c.req.packed = true) ∨ Simple P c)
  | .sendRest => AfterBody P c pre ∧ (c.req.status ≠ .nothing → c.req.packed = true)
  | .finished ret => Ended P c ret pre q
  | .fault => True

def Run.Sends (c : Run σ) (pre : List QBlock) (cs : List (List UInt8)) (q : List QBlock) : Prop :=
  Sent P c.req.side c.net.final c.hist.produced pre cs q

/-- **The invariant of the sending side.** -/
def SendInv (c : Run σ) : Prop := ∃ pre cs q, c.Sends P pre cs q ∧ Stage P c pre q

/-- What the premises ask of a state before a step. -/
structure StepOk (c : Run σ) : Prop where
  locked : P.locked → ∀ l, (c.pc = .gsbTop l ∨ c.pc = .gsbInner l) → l.parseOnly = true →
    c.req.dataLocked = true
  update : ((∃ l, c.pc = .gsbTop l) ∧ c.req.dataLocked = false) ∨ c.pc = .sendRest →
    UpdateOk P c.req
  rest : P.trailers → c.pc = .endOfData → c.req.status = .eof → c.req.block.bytes = [] →
    c.req.responceHasbody = true → c.req.trailerNames = none

variable {P}

/-! ## Ends -/

section Ends

variable {c : Run σ} {pre q : List QBlock} {cs : List (List UInt8)}

section

variable (h : c.Sends P pre cs q)
include h

theorem Run.Sends.fail : SendInv P (c.finish .error) :=
  ⟨pre, cs, q, h, ⟨nofun, nofun⟩⟩

theorem Run.Sends.close : SendInv P c.close :=
  ⟨pre, cs, q, h, ⟨nofun, nofun⟩⟩

theorem Run.Sends.fault : SendInv P { c with pc := .fault } :=
  ⟨pre, cs, q, h, trivial⟩

theorem Run.Sends.failGetSendBody (parseOnly : Bool) : SendInv P (c.failGetSendBody parseOnly) := by
  unfold Run.failGetSendBody
  split
  · exact h.fail
  · exact h.close

end

theorem SendInv.checked (h : SendInv P c) : SendInv P c.checked := by
  unfold Run.checked
  split
  · obtain ⟨_, _, _, hs, -⟩ := h
    exact hs.fault
  · exact h

/-- Once a response has begun no head was written before it, where the data are locked while a
body is only read. -/
theorem Run.Sends.pre_nil (h : c.Sends P pre cs q) (hl : P.locked) (hst : c.req.status ≠ .nothing) :
    pre = [] := by
  by_contra hne
  have hq := h.queue
  rw [h.pre_locked hl hne] at hq
  change Queue P c.req.side c.req.status cs [] at hq
  generalize c.req.status = st at hq hst
  generalize hnil : ([] : List QBlock) = q' at hq
  cases hq with
  | nothing => exact hst rfl
  | trailers => simp at hnil
  | _ => cases hnil

theorem Run.Sends.queue_nil (h : c.Sends P pre cs q) (hst : c.req.status = .nothing) :
    q = [] ∧ cs = [] ∧ c.req.responceHasbody = false := by
  have hq := h.queue
  rw [show c.req.side.status = .nothing from hst] at hq
  cases hq with
  | nothing hb => exact ⟨rfl, rfl, hb⟩
  | heads _ hi _ => cases hi

end Ends

/-! ## Responses written at once -/

theorem Net.final_put (n : Net) {s : Seg} (h : s.src ≠ .interim) :
    (n.put s).final = Pieces.put n.final s := by
  unfold Net.final Net.put
  rw [put_filter, if_pos (by simpa using h)]

section Respond

variable {c : Run σ} {pre q : List QBlock} {cs : List (List UInt8)}

/-- `ec_responce` when nothing has been sent. -/
theorem Run.Sends.respond (h : c.Sends P [] cs q) (hst : c.req.status = .nothing)
    (hb : c.req.block.bytes = []) (hp : c.req.packed = false) (t : Tick) (ec : Ec) :
    (c.respond cfg t ec).2.Sends P [] []
      [(.head (ecHead cfg c.req ec), (ecHead cfg c.req ec).buf.take (t.write.getD 0))] := by
  have hd := h.direct hb hst hp (ecHead cfg c.req ec)
    (some (if ec = .ec204 ∧ cfg.allow204As200okZeroEncaps then .ec200 else ec))
    ((ecHead cfg c.req ec).buf.take (t.write.getD 0)) rfl
  rw [← c.net.final_put (by simp)] at hd
  exact hd

theorem Run.Sends.reject (h : c.Sends P [] cs q) (hst : c.req.status = .nothing)
    (hb : c.req.block.bytes = []) (hp : c.req.packed = false) (t : Tick) (ec : Ec) :
    SendInv P (c.reject cfg t ec) :=
  (Run.Sends.respond cfg (show c.noKeepalive.Sends P [] cs q from h) hst hb hp t ec).fail

theorem Early.reject (he : Early P c pre) (h : c.Sends P pre cs q) (t : Tick) (ec : Ec) :
    SendInv P (c.reject cfg t ec) := by
  obtain rfl := he.pre
  exact h.reject cfg he.status he.block he.packed t ec

end Respond

/-! ## The head and the encapsulated headers -/

section Reading

variable {c : Run σ} {pre q : List QBlock} {cs : List (List UInt8)}

variable {c' : Run σ}

/-- What reading changes is not part of the sending side. -/
theorem Run.Sends.congr (h : c.Sends P pre cs q) (hside : c'.req.side = c.req.side)
    (hwire : c'.net.wire = c.net.wire) (hprod : c'.hist.produced = c.hist.produced) :
    c'.Sends P pre cs q := by
  unfold Run.Sends Net.final at *
  rw [hside, hwire, hprod]
  exact h

theorem Early.congr (he : Early P c pre) (hside : c'.req.side = c.req.side)
    (hecho : c'.req.echoBody = c.req.echoBody) : Early P c' pre := by
  have hst : c'.req.status = c.req.status := congrArg Side.status hside
  have hb : c'.req.block = c.req.block := congrArg Side.block hside
  have hp : c'.req.packed = c.req.packed := congrArg Side.packed hside
  exact ⟨he.pre, hst.trans he.status, by rw [hb]; exact he.block, hp.trans he.packed,
    hecho.trans he.echo, by rw [hside]; exact he.ready⟩

/-- The services the server offers meet the premises. -/
def Config.ServicesOk (P : Premises) : Prop := ∀ m, cfg.Offers m → ServiceOk P m

/-- While nothing is queued the rest of the request does not matter. -/
theorem Run.Sends.early (h : c.Sends P pre cs q) (hst : c.req.status = .nothing)
    (hst' : c'.req.status = .nothing) (hblock : c'.req.block = c.req.block)
    (hbody : c'.req.responceHasbody = c.req.responceHasbody) (hwire : c'.net.final = c.net.final)
    (hprod : c'.hist.produced = c.hist.produced) : c'.Sends P pre cs q := by
  obtain ⟨rfl, rfl, hb⟩ := h.queue_nil hst
  constructor
  · rw [hwire, show c'.req.side.block = c.req.side.block from hblock]
    exact h.writes
  · rw [show c'.req.side.status = .nothing from hst']
    exact .nothing (hbody.trans hb)
  · rw [hprod, show c'.req.side.block = c.req.side.block from hblock]
    exact h.data
  · rw [show c'.req.side.block = c.req.side.block from hblock]
    exact h.src
  · exact h.pre_ok
  · exact h.pre_locked

/-- `do_request` behind `parse_header`. -/
theorem afterHead_sendInv (hs : c.Sends P [] cs q) (hst : c.req.status = .nothing)
    (hb : c.req.block.bytes = []) (hp : c.req.packed = false) (he : c.req.echoBody = none)
    (t : Tick) (ec : Ec) (hready : ec = .ec100 → Ready P c.req.side) :
    SendInv P (c.afterHead cfg t ec) := by
  unfold Run.afterHead
  split
  · exact hs.reject cfg hst hb hp t ec
  rename_i hec
  split
  · exact hs.fault
  split
  · exact hs.reject cfg hst hb hp t _
  · split
    · rename_i authRequired headers _
      have hs' : ({ c with req := { c.req with
          xheaders := c.req.xheaders.addAll headers, authRequired := authRequired } } :
            Run σ).Sends P [] cs q := hs.early hst hst rfl rfl rfl rfl
      exact hs'.reject cfg hst hb hp t _
    · exact ⟨[], cs, q, hs, rfl, hst, hb, hp, he, hready (not_not.mp hec)⟩

section

variable (hcfg : cfg.ServicesOk P) (he : Early P c pre) (hn : c.req.trailerNames = none) (hs : c.Sends P pre cs q)
include hcfg he hn hs

theorem headRead_sendInv (t : Tick) (buf : List UInt8)
    (used : Nat) : SendInv P (c.headRead cfg t buf used) := by
  obtain rfl := he.pre
  unfold Run.headRead
  dsimp only
  generalize hr : ({ c.req with rd := { c.req.rd with
    pstrblockRead := buf.drop used, requestBytesIn := used } } : Req σ) = r
  have hs' : ({ c with req := r } : Run σ).Sends P [] cs q := hs.congr (by rw [← hr]; rfl) rfl rfl
  have he' : Early P { c with req := r } [] := he.congr (by rw [← hr]; rfl) (by rw [← hr])
  have hn' : r.trailerNames = none := by rw [← hr]; exact hn
  have hacc := @parseHead_accepts σ cfg r (buf.take used)
  have honly := parseHead_headOnly cfg r (buf.take used)
  generalize parseHead cfg r (buf.take used) = res at hacc honly
  obtain ⟨ec, r'⟩ := res
  obtain ⟨x, rfl⟩ : ∃ x, r' = r.withHead x := ⟨_, honly⟩
  have hs'' : ({ c with req := r.withHead x } : Run σ).Sends P [] cs q :=
    hs'.early he'.status he'.status rfl rfl rfl rfl
  refine afterHead_sendInv cfg hs'' he'.status he'.block he'.packed he'.echo t ec ?_
  rintro rfl
  obtain ⟨⟨m, hm, hoff⟩, hcheck⟩ := hacc rfl
  have hpacked : r.packed = false := he'.packed
  have hnone : (r.withHead x).side.trailerNames.isSome = true → False := by
    intro h
    rw [show (r.withHead x).side.trailerNames = none from hn'] at h
    cases h
  constructor
  · exact fun _ ht => checkRequest_noThirdHeader hcheck ht
  · intro m' hm'
    rw [show (r.withHead x).side.mod = (r.withHead x).mod from rfl, hm] at hm'
    cases hm'
    exact hcfg m hoff
  · exact he'.ready.plain
  · exact fun h => (hnone h).elim
  · intro n hmem
    rw [show (r.withHead x).side.trailerNames = none from hn'] at hmem
    cases hmem
  · exact fun _ _ h => (hnone h).elim
  · intro _ hp
    rw [show (r.withHead x).side.packed = false from hpacked] at hp
    cases hp
  · exact fun _ _ h => (hnone h).elim

theorem searchHead_sendInv (t : Tick) (buf : List UInt8)
    (pos back : Nat) : SendInv P (c.searchHead cfg t buf pos back) := by
  unfold Run.searchHead
  split
  · exact headRead_sendInv cfg hcfg he hn hs t buf _
  · exact ⟨pre, cs, q, hs, he.congr rfl rfl, hn⟩

theorem startStep_sendInv (t : Tick) : SendInv P (c.startStep cfg t) := by
  unfold Run.startStep
  split
  · apply searchHead_sendInv cfg hcfg
    · exact he.congr rfl rfl
    · exact hn
    · exact hs.congr rfl rfl rfl
  · exact ⟨pre, cs, q, hs, he.congr rfl rfl, hn⟩

end

/-- A read takes bytes from the connection and leaves the rest. -/
theorem readNonblock_spec {c c' : Run σ} {t : Tick} {room : Nat} {got : List UInt8}
    (h : c.readNonblock t room = some (got, c')) :
    ∃ input, c' = { c with net := { c.net with input := input } } ∧ c.net.input = got ++ input := by
  unfold Run.readNonblock at h
  cases hr : t.read with
  | none => simp [hr] at h
  | some k =>
    simp only [hr] at h
    obtain ⟨rfl, rfl⟩ := h
    exact ⟨_, rfl, (List.take_append_drop _ _).symm⟩

theorem readHeaderStep_sendInv (hcfg : cfg.ServicesOk P) {buf : List UInt8} {back : Nat}
    (hpc : c.pc = .readHeader buf back) (he : Early P c pre) (hn : c.req.trailerNames = none)
    (hs : c.Sends P pre cs q) (t : Tick) : SendInv P (c.readHeaderStep cfg t buf back) := by
  have hlost : SendInv P c.headLost :=
    (hs.early he.status (show (c.setCode .ec408).req.status = _ from he.status)
      rfl rfl rfl rfl).close
  unfold Run.readHeaderStep
  split
  · exact hlost
  split
  · exact hlost
  rename_i heq
  obtain ⟨input, rfl, -⟩ := readNonblock_spec heq
  split
  · refine ⟨pre, cs, q, hs, ?_⟩
    simp only [hpc]
    exact ⟨he.congr rfl rfl, hn⟩
  · apply searchHead_sendInv cfg hcfg
    · exact he.congr rfl rfl
    · exact hn
    · exact hs.congr rfl rfl rfl

theorem modify_headers_types (es : List Entity) (i : Nat) (h : Headers) :
    (es.modify i (fun e => { e with headers := h })).map Entity.type = es.map Entity.type := by
  induction es generalizing i with
  | nil => simp
  | cons e es ih => cases i <;> simp [ih]

theorem encapsRead_sendInv (he : Early P c pre) (hs : c.Sends P pre cs q) (t : Tick) (i : Nat)
    (block : List UInt8) : SendInv P (c.encapsRead cfg t i block) := by
  unfold Run.encapsRead
  dsimp only
  split
  · apply Early.reject cfg
    · exact he.congr rfl rfl
    · exact hs.congr rfl rfl rfl
  · rename_i h _
    refine ⟨pre, cs, q, hs.early he.status he.status rfl rfl rfl rfl,
      he.pre, he.status, he.block, he.packed, he.echo, ?_⟩
    exact { he.ready with
      third := fun hk ht => .congr (modify_headers_types c.req.entities i h) (he.ready.third hk ht) }

/-! ## The service is called for the first time -/

variable {calls : List ApiCall}

theorem Early.api {r : Req σ} (he : Early P c pre) {svc : σ}
    (heff : ApiEffect calls c.req r) (hplain : P.trailers → ∀ a ∈ calls, a.plain = true) :
    Early P { c with svc := svc, req := r } pre := by
  have hready := he.ready.api heff hplain
  obtain ⟨x, rfl⟩ : ∃ x, r = c.req.withApi x := ⟨_, heff.only⟩
  exact ⟨he.pre, he.status, he.block, he.packed, he.echo, hready⟩

theorem Run.Sends.apiEarly {r : Req σ} (h : c.Sends P pre cs q)
    (hst : c.req.status = .nothing) {svc : σ} (heff : ApiEffect calls c.req r) :
    ({ c with svc := svc, req := r } : Run σ).Sends P pre cs q :=
  Sent.api h heff (fun _ hne => absurd hst hne)

variable (he : Early P c pre) (hs : c.Sends P pre cs q)
include he hs

theorem initRequest_early {m : Service σ}
    (hm : ServiceOk P m) : Early P (c.initRequest m) pre ∧ (c.initRequest m).Sends P pre cs q := by
  unfold Run.initRequest
  split
  · rename_i init hinit
    have heff := apis_effect c.req (init c.svc c.req.view).2
    exact ⟨he.api heff fun ht => (hm.plain ht).init init hinit _ _, hs.apiEarly he.status heff⟩
  · exact ⟨he, hs⟩

/-- The head of an OPTIONS response stands before the queue of a response, which stays empty. -/
theorem optionsHead_sends (m : Service σ) (ok : Bool) (date : List UInt8) :
    SendInv P { c with req := optionsHead cfg c.req m ok date, pc := .sendOptions } := by
  obtain rfl := he.pre
  obtain ⟨rfl, rfl, hb⟩ := hs.queue_nil he.status
  have hsilent : P.trailers → (optionsHead cfg c.req m ok date).responseHeader.announces = false :=
    fun ht => optionsHead_silent cfg (he.ready.plain ht) m ok date
  have hblock : (optionsHead cfg c.req m ok date).block =
      ⟨.head (optionsHead cfg c.req m ok date).responseHeader, 0,
        (optionsHead cfg c.req m ok date).responseHeader.buf⟩ := rfl
  have hst : (optionsHead cfg c.req m ok date).status = .nothing := he.status
  have hbody : (optionsHead cfg c.req m ok date).responceHasbody = false := hb
  generalize optionsHead cfg c.req m ok date = r at *
  have hout : Block.out r.block = r.block := by rw [hblock]; exact if_neg (by simp)
  have hraw : Block.raw r.block = [] := by rw [hblock]; exact if_neg (by simp)
  refine ⟨[(.head r.responseHeader, r.responseHeader.buf)], [], [], ?_, by simp, rfl, hraw, hst⟩
  constructor
  · rw [show Block.out ({ c with req := r, pc := .sendOptions } : Run σ).req.side.block = _ from
      hout.trans hblock]
    exact hs.writes.queue (Block.out_of_nil he.block) _ _
  · rw [show ({ c with req := r, pc := .sendOptions } : Run σ).req.side.status = .nothing from hst]
    exact .nothing hbody
  · rw [show Block.raw ({ c with req := r, pc := .sendOptions } : Run σ).req.side.block = [] from
      hraw, ← Block.raw_of_nil he.block]
    exact hs.data
  · rw [show ({ c with req := r, pc := .sendOptions } : Run σ).req.side.block = _ from hblock]
    exact nofun
  · exact .inr ⟨_, _, rfl, hsilent⟩
  · exact fun _ _ => rfl

variable (t : Tick)
include t

theorem dispatchMethod_sendInv
    {m : Service σ} (hm : ServiceOk P m) : SendInv P (c.dispatchMethod cfg t m) := by
  have hmod : c.req.side.IsMod → SendInv P (if 0 ≤ c.req.preview then
        if c.req.hasbody then c.enterReadPreview else { c with pc := .preview true }
      else { c with pc := .fakePreview }) := by
    intro hty
    split
    · split
      · rename_i hbody
        unfold Run.enterReadPreview
        dsimp only
        split
        all_goals exact ⟨pre, cs, q, hs.congr rfl rfl rfl, he.congr rfl rfl, hty, hbody⟩
      · exact ⟨pre, cs, q, hs, he.congr rfl rfl, hty, nofun⟩
    · exact ⟨pre, cs, q, hs, he.congr rfl rfl, hty⟩
  unfold Run.dispatchMethod
  split
  · exact hs.close
  · have heff := apis_effect c.req (m.optionHandlers c.svc c.req.view).2.2
    apply optionsHead_sends cfg
    · exact he.api heff fun ht => (hm.plain ht).options _ _
    · exact hs.apiEarly he.status heff
  · rename_i hty
    exact hmod (.inl hty)
  · rename_i hty
    exact hmod (.inr hty)

/-- `do_request` behind `parse_encaps_headers`. -/
theorem dispatch_sendInv : SendInv P (c.dispatch cfg t) := by
  unfold Run.dispatch
  split
  · exact hs.fault
  · rename_i m hm
    have hm' := he.ready.service m hm
    obtain ⟨he', hs'⟩ := initRequest_early he hs hm'
    exact dispatchMethod_sendInv cfg he' hs' t hm'

theorem encapsStep_sendInv (i : Nat) : SendInv P (c.encapsStep cfg t i) := by
  unfold Run.encapsStep
  split
  · exact dispatch_sendInv cfg he hs t
  split
  · exact dispatch_sendInv cfg he hs t
  split
  · exact he.reject cfg hs t _
  dsimp only
  split
  · exact hs.fault
  · split
    · apply encapsRead_sendInv cfg
      · exact he.congr rfl rfl
      · exact hs.congr rfl rfl rfl
    · exact ⟨pre, cs, q, hs.congr rfl rfl rfl, he.congr rfl rfl⟩

theorem readEncapsStep_sendInv (i : Nat)
    (buf : List UInt8) (remains : Nat) : SendInv P (c.readEncapsStep cfg t i buf remains) := by
  unfold Run.readEncapsStep
  split
  · exact he.reject cfg hs t _
  split
  · exact he.reject cfg hs t _
  · rename_i heq
    obtain ⟨input, rfl, -⟩ := readNonblock_spec heq
    split
    · apply encapsRead_sendInv cfg
      · exact he.congr rfl rfl
      · exact hs.congr rfl rfl rfl
    · exact ⟨pre, cs, q, hs.congr rfl rfl rfl, he.congr rfl rfl⟩

end Reading

end CIcap
