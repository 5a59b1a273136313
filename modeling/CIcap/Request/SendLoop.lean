import CIcap.Request.SendRun

/-! # The sending side in `get_send_body` and behind it

One lemma for each part of a round of `get_send_body`: the connection, the next block, the
parser, the call of the service, the formatting. Then `do_end_of_data` and
`send_remaining_response`.
-/

namespace CIcap

open CText Pieces List

variable {σ : Type} (cfg : Config σ) {P : Premises}

section Body

variable {c : Run σ} {l : Gsb} {pre q : List QBlock} {cs : List (List UInt8)}

variable {c' : Run σ} {calls : List ApiCall}

theorem InBody.congr {l' : Gsb} (h : InBody P c l pre)
    (hside : c'.req.side = c.req.side) (hl : l'.parseOnly = l.parseOnly) : InBody P c' l' pre := by
  have hst : c'.req.status = c.req.status := congrArg Side.status hside
  have hb : c'.req.block = c.req.block := congrArg Side.block hside
  have hp : c'.req.packed = c.req.packed := congrArg Side.packed hside
  constructor
  · constructor
    · rw [hside]
      exact h.ready
    · rw [hside]
      exact h.type
    · rw [hst, hb, hp]
      exact h.idle
  · rw [hst, hp]
    exact h.packed
  · rw [hl]
    exact h.pre_nil
  · rw [hl]
    exact h.pre_drain
  · rw [hl, hside]
    exact h.code

/-! ## The connection -/

/-- The state of `get_send_body` between two parts of a round. -/
structure Mid (P : Premises) (c : Run σ) (l : Gsb) (pre : List QBlock) : Prop extends
    InBody P c l pre where
  sends : ∃ cs q, c.Sends P pre cs q
  raw : Block.raw c.req.block = []
  /-- a head written before stands alone while the data are locked -/
  drain : P.locked → c.req.dataLocked = false → pre = []
  update : c.req.dataLocked = false → UpdateOk P c.req

theorem Run.Sends.write (hs : c.Sends P pre cs q) (hraw : Block.raw c.req.block = [])
    (hne : c.req.block.bytes ≠ []) (n : Nat) :
    ({ c with
      net := c.net.put (c.req.block.upTo n)
      req := { c.req with block := c.req.block.after n } } : Run σ).Sends P pre cs q ∧
      Block.raw (c.req.block.after n) = [] := by
  have hsend := Sent.send hs hraw hne n
  have hwire : (c.net.put (c.req.block.upTo n)).final =
      put c.net.final (c.req.side.block.upTo n) := c.net.final_put hs.src
  rw [← hwire] at hsend
  refine ⟨hsend, ?_⟩
  unfold Block.raw at hraw ⊢
  split_ifs at hraw with hsrc
  · exact absurd hraw hne
  · exact if_neg hsrc

theorem sendCurrentBlock_mid (h : Mid P c l pre) (t : Tick) : Mid P (c.sendCurrentBlock t).2 l pre := by
  unfold Run.sendCurrentBlock
  split
  · exact h
  rename_i hne
  split
  · exact h
  rename_i n _
  obtain ⟨cs, q, hs⟩ := h.sends
  have hst : c.req.status ≠ .nothing := fun hst => hne (h.idle hst).1
  obtain ⟨hsend, hraw⟩ := hs.write h.raw hne n
  refine ⟨⟨⟨h.ready.moved _ _, h.type, fun hst' => absurd hst' hst⟩, h.packed, h.pre_nil, h.pre_drain,
    h.code⟩, ⟨cs, q, hsend⟩, hraw, h.drain, fun hl => ?_⟩
  have hu := h.update hl
  exact { hu with }

/-- The next block is prepared when nothing is left of the current one. -/
theorem update_mid (h : Mid P c l pre) (hnil : c.req.block.bytes = [])
    (hlock : c.req.dataLocked = false) :
    (updateSendStatus cfg c.req).1 ≠ .error ∧
      InBody P { c with req := (updateSendStatus cfg c.req).2 } l pre ∧
      (∃ cs q, ({ c with req := (updateSendStatus cfg c.req).2 } : Run σ).Sends P pre cs q) ∧
      Block.raw (updateSendStatus cfg c.req).2.block = [] := by
  obtain ⟨cs, q, hs⟩ := h.sends
  have hsucc : P.locked → c.req.side.Successful := by
    intro hl
    apply h.code
    by_contra hpo
    exact h.pre_drain (by simpa using hpo) (h.drain hl hlock)
  have hu := updateSendStatus_updated cfg hs h.ready hnil h.type h.packed
    (fun hl => h.drain hl hlock) hsucc (h.update hlock)
  have honly := updateSendStatus_only cfg c.req
  have hty : (updateSendStatus cfg c.req).2.type = c.req.type := by rw [honly]
  have hcode : (updateSendStatus cfg c.req).2.returnCode = c.req.returnCode := by rw [honly]
  exact ⟨hu.not_error, ⟨⟨hu.ready, h.type.of_type hty, fun hst => absurd hst hu.begun⟩, fun _ => hu.packed,
    h.pre_nil, h.pre_drain, fun hpo => (h.code hpo).of_code hcode⟩, ⟨cs, hu.sent⟩, hu.raw⟩

theorem gsbNet_mid (h : Mid P c l pre) (t : Tick) (read write : Bool) :
    Mid P (c.gsbNet cfg t read write).2 l pre := by
  have hread : Mid P (if read = true then c.netDataRead t else (true, c)).2 l pre := by
    split
    · obtain ⟨rd, input, heq⟩ := netDataRead_frame c t
      rw [heq]
      obtain ⟨cs, q, hs⟩ := h.sends
      refine ⟨h.congr rfl rfl, ⟨cs, q, hs.congr rfl rfl rfl⟩, h.raw, h.drain, fun hl => ?_⟩
      have hu := h.update hl
      exact { hu with }
    · exact h
  unfold Run.gsbNet
  generalize (if read = true then c.netDataRead t else (true, c)) = r at hread
  obtain ⟨ok, d⟩ := r
  dsimp only
  split
  · apply sendCurrentBlock_mid
    split
    · rename_i hnew
      have hlock : d.req.dataLocked = false := by simpa using hnew.1
      have hnil := (hread.idle hnew.2).1
      obtain ⟨-, hb, hs, hraw⟩ := update_mid cfg hread hnil hlock
      have hst : (updateSendStatus cfg d.req).2.status = .respHead := by
        unfold updateSendStatus
        rw [hnew.2]
      refine ⟨hb, hs, hraw, fun hl _ => hread.drain hl hlock, fun _ => ?_⟩
      constructor <;> intro _ h' <;> rw [hst] at h' <;> cases h'
    · exact hread
  · exact hread

/-- The inner loop of `get_send_body`: body data can wait for more only while nothing
formatted is left to send. -/
structure Inner (P : Premises) (c : Run σ) (l : Gsb) (pre : List QBlock) : Prop extends
    InBody P c l pre where
  sends : ∃ cs q, c.Sends P pre cs q
  formatted : l.hasFormatedData = true → Block.raw c.req.block = []
  filling : l.hasFormatedData = false → (Block.out c.req.block).bytes = [] ∧
    (c.req.status ≠ .body → c.req.block.bytes = [])

theorem Inner.sendInv (h : Inner P c l pre) : SendInv P { c with pc := .gsbInner l } := by
  obtain ⟨cs, q, hs⟩ := h.sends
  exact ⟨pre, cs, q, hs, h.congr rfl rfl, h.formatted, h.filling⟩

/-- A round of `get_send_body` after the connection. -/
theorem gsbUpdate_sendInv (h : Mid P c l pre) : SendInv P (c.gsbUpdate cfg l) := by
  have hinner : ∀ d : Run σ, InBody P d l pre → (∃ cs q, d.Sends P pre cs q) →
      Block.raw d.req.block = [] →
      SendInv P { d with pc := .gsbInner { l with
        lockStatus := d.req.dataLocked
        hasFormatedData := decide (d.req.block.bytes ≠ [])
        parseChunkRet := none } } := by
    intro d hd hs hraw
    refine Inner.sendInv ⟨hd.congr rfl rfl, hs, fun _ => hraw, fun hf => ?_⟩
    have hnil : d.req.block.bytes = [] := by simpa using hf
    exact ⟨Block.out_of_nil hnil, fun _ => hnil⟩
  unfold Run.gsbUpdate
  split
  rename_i ret req heq
  by_cases hup : (!c.req.dataLocked) = true ∧ c.req.block.bytes = []
  · rw [if_pos hup] at heq
    obtain ⟨hne, hb, hs, hraw⟩ := update_mid cfg h hup.2 (by simpa using hup.1)
    rw [heq] at hne hb hs hraw
    rw [if_neg hne]
    exact hinner _ hb hs hraw
  · rw [if_neg hup] at heq
    cases heq
    exact hinner c h.toInBody h.sends h.raw

/-! ## The parser and the service -/

theorem gsbParse_frame (c : Run σ) (l : Gsb) : ∃ rd, (c.gsbParse l).2.1 =
    { c with req := { c.req with rd := rd } } ∧ (c.gsbParse l).2.2.parseOnly = l.parseOnly ∧
      (c.gsbParse l).2.2.hasFormatedData = l.hasFormatedData ∧
      (c.gsbParse l).2.2.serviceEof = l.serviceEof := by
  unfold Run.gsbParse
  split
  · exact ⟨_, rfl, rfl, rfl, rfl⟩
  · exact ⟨c.req.rd, rfl, rfl, rfl, rfl⟩

theorem Inner.congr {l' : Gsb} (h : Inner P c l pre)
    (hside : c'.req.side = c.req.side) (hwire : c'.net.wire = c.net.wire)
    (hprod : c'.hist.produced = c.hist.produced) (hl : l'.parseOnly = l.parseOnly)
    (hf : l'.hasFormatedData = l.hasFormatedData) : Inner P c' l' pre := by
  have hb : c'.req.block = c.req.block := congrArg Side.block hside
  have hst : c'.req.status = c.req.status := congrArg Side.status hside
  obtain ⟨cs, q, hs⟩ := h.sends
  refine ⟨h.toInBody.congr hside hl, ⟨cs, q, hs.congr hside hwire hprod⟩, ?_, ?_⟩
  · rw [hf, hb]
    exact h.formatted
  · rw [hf, hb, hst]
    exact h.filling

/-- The calls of a service that is asked for input or output. -/
theorem io_calls_ok (hr : Ready P c.req.side) {a : IoArgs}
    (hcalls : calls = [] ∨ ∃ m io, c.req.mod = some m ∧ m.serviceIo = some io ∧
      calls = (io c.svc c.req.view a).2.2) :
    (P.keeps → c.req.status ≠ .nothing → ∀ x ∈ calls, x.creates = false) ∧
      (P.trailers → ∀ x ∈ calls, x.plain = true) := by
  rcases hcalls with rfl | ⟨m, io, hm, hio, rfl⟩
  · exact ⟨fun _ _ => by simp, fun _ => by simp⟩
  · have hm' := hr.service m hm
    constructor
    · intro hk hst
      refine (hm'.keeps hk).io io hio _ _ _ ?_
      exact decide_eq_true hst
    · exact fun ht => (hm'.plain ht).io io hio _ _ _

/-- A call of `service_io` leaves the sending side alone. -/
theorem IoEffect.sends (he : IoEffect calls c c') (hs : c.Sends P pre cs q)
    (hk : P.keeps → c.req.status ≠ .nothing → ∀ x ∈ calls, x.creates = false) :
    c'.Sends P pre cs q := by
  have h := Sent.api hs he.api hk
  unfold Run.Sends
  rw [he.net, he.hist]
  exact h

theorem IoEffect.side (he : IoEffect calls c c') :
    c'.req.status = c.req.status ∧ c'.req.block = c.req.block ∧ c'.req.packed = c.req.packed ∧
      c'.req.type = c.req.type ∧ c'.req.returnCode = c.req.returnCode := by
  have h := he.api.only
  have hx : ∀ {β : Type} (f : Req σ → β), (∀ r e, f { r with echoBody := e } = f r) →
      (∀ r x, f (Req.withApi r x) = f r) → f c'.req = f c.req := by
    intro β f h1 h2
    rw [← h1 c'.req c.req.echoBody, h, h2]
  exact ⟨hx _ (fun _ _ => rfl) (fun _ _ => rfl), hx _ (fun _ _ => rfl) (fun _ _ => rfl),
    hx _ (fun _ _ => rfl) (fun _ _ => rfl), hx _ (fun _ _ => rfl) (fun _ _ => rfl),
    hx _ (fun _ _ => rfl) (fun _ _ => rfl)⟩

theorem serviceIo_active (h : Active P c) (parseOnly : Bool) (a : IoArgs) :
    Active P (c.serviceIo parseOnly a).2 := by
  obtain ⟨calls, heff, hcalls⟩ := serviceIo_effect c parseOnly a
  obtain ⟨hk, hp⟩ := io_calls_ok h.ready hcalls
  obtain ⟨hst, hb, hpk, hty, -⟩ := heff.side
  constructor
  · have hr := h.ready.api heff.api hp
    exact hr
  · exact h.type.of_type hty
  · rw [hst, hb, hpk]
    exact h.idle

theorem serviceIo_inner (h : Inner P c l pre) (a : IoArgs) :
    Inner P (c.serviceIo l.parseOnly a).2 l pre := by
  obtain ⟨calls, heff, hcalls⟩ := serviceIo_effect c l.parseOnly a
  obtain ⟨hk, -⟩ := io_calls_ok h.ready hcalls
  obtain ⟨hst, hb, hpk, -, hcode⟩ := heff.side
  obtain ⟨cs, q, hs⟩ := h.sends
  refine ⟨⟨serviceIo_active h.toActive l.parseOnly a, ?_, h.pre_nil, h.pre_drain, ?_⟩,
    ⟨cs, q, heff.sends hs hk⟩, ?_, ?_⟩
  · rw [hst, hpk]
    exact h.packed
  · exact fun hpo => (h.code hpo).of_code hcode
  · rw [hb]
    exact h.formatted
  · rw [hb, hst]
    exact h.filling

theorem Block.raw_of_out_nil {b : Block} (h : (Block.out b).bytes = []) : Block.raw b = b.bytes := by
  unfold Block.out Block.raw at *
  split_ifs at h ⊢
  · rfl
  · exact h.symm

/-- What the service has taken and given is booked: there are body data only where there was
room for them. -/
theorem gsbBook_inner (h : Inner P c l pre) (read : IoRead) (n : Nat)
    (hroom : read.bytes.length ≤ c.gsbRoom l) :
    Inner P (c.gsbBook l read n).1 (c.gsbBook l read n).2 pre := by
  unfold Run.gsbBook
  by_cases hnil : read.bytes = []
  · refine h.congr ?_ rfl ?_ rfl rfl
    · simp only [hnil, if_true]
      rfl
    · simp [hnil]
  have hpos : 0 < c.gsbRoom l := Nat.lt_of_lt_of_le (length_pos_iff.mpr hnil) hroom
  have hfill : c.req.status = .body ∧ l.hasFormatedData = false := by
    unfold Run.gsbRoom at hpos
    split at hpos
    · rename_i hb
      exact ⟨hb.1, hb.2.2⟩
    · omega
  obtain ⟨hout, -⟩ := h.filling hfill.2
  obtain ⟨cs, q, hs⟩ := h.sends
  have hb := hs.fill hout (Block.raw_of_out_nil hout) read.bytes
  simp only [if_neg hnil]
  refine ⟨⟨⟨h.ready.moved _ _, h.type, ?_⟩, h.packed, h.pre_nil, h.pre_drain, h.code⟩, ⟨cs, q, hb⟩, ?_, ?_⟩
  · intro hst
    rw [show _ = SendStatus.body from hfill.1] at hst
    cases hst
  · intro hf
    rw [show _ = false from hfill.2] at hf
    cases hf
  · exact fun _ => ⟨rfl, fun hne => absurd hfill.1 hne⟩

/-! ## The end of a round -/

/-- The loop of `get_send_body` is left. -/
theorem leaveGetSendBody_sendInv (h : InBody P c l pre) (hs : c.Sends P pre cs q)
    (hraw : Block.raw c.req.block = []) (t : Tick) :
    SendInv P (c.leaveGetSendBody cfg t l.parseOnly) := by
  unfold Run.leaveGetSendBody
  split
  · rename_i heof
    split
    · -- the answer was sent before the body
      rename_i hpo
      refine ⟨pre, cs, q, ?_, fun _ _ hne => absurd rfl hne, ?_⟩
      · refine { hs with queue := hs.queue.transfer rfl rfl rfl ?_ (fun _ => rfl) (fun _ _ _ => rfl) }
        rintro - (h' | h') <;> cases h'
      · rintro - ht hl - ⟨h', out, hmem, ha⟩
        rw [hs.pre_locked hl (h.pre_drain hpo)] at hmem
        rcases hs.pre_ok with hnil | ⟨h'', out', rfl, hsil⟩
        · exact absurd hnil (h.pre_drain hpo)
        · cases mem_singleton.mp hmem
          rw [hsil ht] at ha
          cases ha
    · rename_i hpo
      have hpo' : l.parseOnly = false := by simpa using hpo
      refine ⟨pre, cs, q, hs, ⟨{ h with }, h.pre_nil hpo', hraw, h.code hpo',
        fun _ => heof⟩, .inl h.packed⟩
  · exact hs.failGetSendBody _

/-- Formatting changes the block and the status only. -/
theorem formatBody_only (req : Req σ) (atEof : Bool) : formatBody req atEof =
    { req with block := (formatBody req atEof).block, status := (formatBody req atEof).status } := by
  unfold formatBody formatBodyChunk
  split_ifs <;> rfl

section

variable (h : Inner P c l pre)
include h

/-- At the end of a round body data become a chunk. -/
theorem gsbFormat_inBody : InBody P (c.gsbFormat l) l pre ∧
    (∃ cs q, (c.gsbFormat l).Sends P pre cs q) ∧ Block.raw (c.gsbFormat l).req.block = [] := by
  obtain ⟨cs, q, hs⟩ := h.sends
  unfold Run.gsbFormat
  split
  · rename_i hfmt
    obtain ⟨hout, -⟩ := h.filling hfmt.2
    have hst : c.req.status ≠ .nothing := by rw [hfmt.1]; exact nofun
    have hf := formatBody_formatted hs h.ready hfmt.1 hout (Block.raw_of_out_nil hout)
      (decide (c.req.block.bytes = []) && l.serviceEof)
      (fun he => by simp at he; exact he.1) (fun hl => hs.pre_nil hl hst)
    have honly := formatBody_only c.req (decide (c.req.block.bytes = []) && l.serviceEof)
    have hty : (formatBody c.req (decide (c.req.block.bytes = []) && l.serviceEof)).side.type =
        c.req.side.type := by rw [honly]; rfl
    have hcode : (formatBody c.req (decide (c.req.block.bytes = []) && l.serviceEof)).side.returnCode =
        c.req.side.returnCode := by rw [honly]; rfl
    exact ⟨⟨⟨hf.ready, h.type.of_type hty, fun h' => absurd h' hf.begun⟩, fun _ => hf.packed, h.pre_nil,
      h.pre_drain, fun hpo => (h.code hpo).of_code hcode⟩, hf.sent, hf.raw⟩
  · rename_i hfmt
    refine ⟨h.toInBody, h.sends, ?_⟩
    cases hf : l.hasFormatedData with
    | true => exact h.formatted hf
    | false =>
      obtain ⟨-, hnil⟩ := h.filling hf
      exact Block.raw_of_nil (hnil fun hb => hfmt ⟨hb, hf⟩)

variable (t : Tick)
include t

theorem gsbTail_sendInv : SendInv P (c.gsbTail cfg t l) := by
  obtain ⟨hb, ⟨cs, q, hs⟩, hraw⟩ := gsbFormat_inBody h
  unfold Run.gsbTail
  dsimp only
  split
  · exact ⟨pre, cs, q, hs, hb.congr rfl rfl, hraw⟩
  · exact leaveGetSendBody_sendInv cfg hb hs hraw t

theorem gsbRepeat_sendInv (moved : Bool) (room : Nat) :
    SendInv P (c.gsbRepeat cfg t l moved room) := by
  unfold Run.gsbRepeat
  dsimp only
  split
  · exact h.sendInv
  · exact gsbTail_sendInv cfg h t

/-- The call of the service in a round of the inner loop. -/
theorem gsbCall_sendInv : SendInv P (c.gsbCall cfg t l) := by
  have h0 : Inner P c (c.gsbSetRchunk l) pre := h.congr rfl rfl rfl rfl rfl
  have hroom : c.gsbRoom (c.gsbSetRchunk l) = c.gsbRoom l := rfl
  unfold Run.gsbCall
  dsimp only
  generalize c.gsbSetRchunk l = l' at h0 hroom
  split
  · have hs := serviceIo_inner h0 ⟨l'.rchunkdata, c.gsbRoom l, c.gsbOffer l, c.req.rd.eofReceived⟩
    obtain ⟨calls, heff, -⟩ := serviceIo_effect c l'.parseOnly
      ⟨l'.rchunkdata, c.gsbRoom l, c.gsbOffer l, c.req.rd.eofReceived⟩
    split
    · rename_i read n d heq
      have hbytes := (serviceIo_bounds heq).1
      rw [heq] at hs heff
      split
      · obtain ⟨cs, q, hs⟩ := hs.sends
        exact hs.failGetSendBody _
      · -- the room is the same before and after the call
        have hroom' : d.gsbRoom l' = c.gsbRoom l' := by
          unfold Run.gsbRoom
          rw [heff.side.1, heff.side.2.1]
        refine gsbRepeat_sendInv cfg (gsbBook_inner hs read n ?_) t _ _
        rw [hroom', hroom]
        exact hbytes
    · rename_i heq
      rw [heq] at hs
      obtain ⟨cs, q, hs⟩ := hs.sends
      exact hs.failGetSendBody _
  · exact gsbRepeat_sendInv cfg h0 t _ _

theorem gsbInner_sendInv : SendInv P (c.gsbInner cfg t l) := by
  obtain ⟨rd, hc, hl, hf, -⟩ := gsbParse_frame c l
  have h' : Inner P (c.gsbParse l).2.1 (c.gsbParse l).2.2 pre := by
    rw [hc]
    exact h.congr rfl rfl rfl hl hf
  obtain ⟨cs, q, hs⟩ := h'.sends
  unfold Run.gsbInner
  split
  · rename_i heq
    rw [heq] at hs
    exact hs.failGetSendBody _
  · rename_i heq
    rw [heq] at hs
    exact hs.fault
  · rename_i heq
    rw [heq] at h'
    exact gsbCall_sendInv cfg h' t

end

theorem gsbTop_sendInv (h : Mid P c l pre) (t : Tick) : SendInv P (c.gsbTop cfg t l) := by
  obtain ⟨cs, q, hs⟩ := h.sends
  unfold Run.gsbTop
  split
  · split
    · exact leaveGetSendBody_sendInv cfg h.toInBody hs h.raw t
    rename_i r w _
    have hm := gsbNet_mid cfg h t r w
    split
    · rename_i heq
      rw [heq] at hm
      obtain ⟨cs', q', hs'⟩ := hm.sends
      exact hs'.failGetSendBody _
    · rename_i heq
      rw [heq] at hm
      exact gsbUpdate_sendInv cfg hm
  · exact gsbUpdate_sendInv cfg h

end Body

/-! ## The end of the data -/

section End

variable {c : Run σ} {q : List QBlock} {cs : List (List UInt8)}

/-- Every head among the queued blocks is the head of the request. -/
theorem Queue.head_mem {s : Side σ} {status : SendStatus} {h : Headers} {out : List UInt8}
    (hq : Queue P s status cs q) (hm : (.head h, out) ∈ q) : h = s.responseHeader := by
  have hno : ∀ {es : List QBlock}, (∀ q ∈ es, ∃ k, q.1 = .entity k) → (.head h, out) ∉ es := by
    intro es he hm
    obtain ⟨k, hk⟩ := he _ hm
    cases hk
  have hchunk : (.head h, out) ∉ cs.map chunkBlock := by
    intro hm
    obtain ⟨d, -, hd⟩ := mem_map.mp hm
    cases hd
  have hfirst : ∀ {o : List UInt8} {es : List QBlock}, (.head h, out) ∉ es →
      (.head h, out) ∈ (.head s.responseHeader, o) :: es → h = s.responseHeader := by
    intro o es hes hm
    cases (mem_cons.mp hm).resolve_right hes
    rfl
  induction hq with
  | nothing => cases hm
  | heads _ _ he => exact hfirst (hno he.src) hm
  | body _ _ he _ => exact hfirst (not_mem_append (hno he.src) hchunk) hm
  | closed _ _ he _ _ =>
    have hbody := not_mem_append (hno he.src) hchunk
    exact hfirst (not_mem_append hbody (by simp)) hm
  | bodiless _ _ he => exact hfirst (hno he.src) hm
  | simple => exact hfirst not_mem_nil hm
  | trailers _ _ _ _ _ ih =>
    rcases mem_append.mp hm with hm | hm
    · exact ih hm hchunk
    · cases mem_singleton.mp hm

/-- What `send_remaining_response` starts from. -/
structure RestOk (P : Premises) (c : Run σ) : Prop extends AfterBody P c [] where
  begun : (c.req.status ≠ .nothing → c.req.packed = true) ∨ Simple P c
  rest : P.trailers → c.req.status = .eof → c.req.block.bytes = [] → c.req.responceHasbody = true →
    c.req.trailerNames = none

/-- The entry of `send_remaining_response`: a response that is complete already ends the
request. -/
theorem enterSendRest_sendInv (h : RestOk P c) (hs : c.Sends P [] cs q) :
    SendInv P c.enterSendRest := by
  unfold Run.enterSendRest
  dsimp only
  split
  · exact Run.Sends.close (hs.congr rfl rfl rfl)
  split
  · rename_i hend
    refine ⟨[], cs, q, hs.congr rfl rfl rfl, ?_, ?_⟩
    · exact fun _ _ _ => ⟨rfl, hend.2, h.code, .inl hend.1⟩
    · rintro - ht - - ⟨h', out, hmem, ha⟩
      obtain rfl := hs.queue.head_mem hmem
      rcases h.begun with hp | hsimple
      · have hpk := hp (by rw [show c.req.status = .eof from hend.1]; exact nofun)
        obtain ⟨hn, hb⟩ := h.ready.silent ht hpk ha
        rw [show c.req.side.trailerNames = none from h.rest ht hend.1 hend.2 hb] at hn
        cases hn
      · rw [show c.req.side.responseHeader.announces = false from hsimple.silent ht] at ha
        cases ha
  · rename_i hend
    refine ⟨[], cs, q, hs.congr rfl rfl rfl, ⟨{ h with }, rfl, h.raw, h.code, h.echo⟩, ?_⟩
    rcases h.begun with hp | hsimple
    · exact hp
    · exact absurd ⟨hsimple.status, hsimple.block⟩ hend

theorem afterEndOfData_sendInv (h : RestOk P c) (hs : c.Sends P [] cs q) :
    SendInv P c.afterEndOfData := by
  unfold Run.afterEndOfData
  split
  · rename_i hc
    rcases h.code with h' | h' <;>
      rw [show c.req.side.returnCode = some .ec204 from hc] at h' <;> cases h'
  · exact enterSendRest_sendInv h hs

theorem Simple.afterEndOfData (h : Simple P c) (hr : Ready P c.req.side) (hty : c.req.side.IsMod)
    (hecho : c.req.echoBody.isSome = true → c.req.rd.eofReceived = true) {out : List UInt8}
    (hs : c.Sends P [] [] [(.head c.req.responseHeader, out)])
    (hcode : c.req.returnCode = some .ec204 ∨ c.req.returnCode = some .ec200) :
    SendInv P c.afterEndOfData := by
  unfold Run.afterEndOfData
  split
  · exact h.ended hs
  rename_i hne
  have hc : c.req.returnCode = some .ec200 := hcode.resolve_left hne
  refine enterSendRest_sendInv ⟨⟨⟨hr, hty, ?_⟩, rfl, Block.raw_of_nil h.block, .inl hc, hecho⟩,
    .inr h, ?_⟩ hs
  · intro hst
    rw [h.status] at hst
    cases hst
  · intro _ _ _ hb
    rw [h.body] at hb
    cases hb

/-- `do_end_of_data` -/
theorem endOfDataStep_sendInv (h : RestOk P c) (hs : c.Sends P [] cs q) (t : Tick) :
    SendInv P (c.endOfDataStep cfg t) := by
  unfold Run.endOfDataStep
  split
  · exact afterEndOfData_sendInv h hs
  rename_i handler hh
  obtain ⟨m, hm, hh⟩ := Option.bind_eq_some_iff.mp hh
  have hm' := h.ready.service m hm
  have heff := apis_effect c.req (handler c.svc c.req.view).2.2
  have hs' : ({ c with svc := (handler c.svc c.req.view).2.1
                       req := c.req.apis (handler c.svc c.req.view).2.2 } : Run σ).Sends P [] cs q :=
    Sent.api hs heff fun hk hst => (hm'.keeps hk).endOfData handler hh _ _ (decide_eq_true hst)
  have hr' := h.ready.api heff fun ht => (hm'.plain ht).endOfData handler hh _ _
  -- the state behind the handler
  have h' : RestOk P { c with svc := (handler c.svc c.req.view).2.1
                              req := c.req.apis (handler c.svc c.req.view).2.2 } := by
    have hnames := heff.names
    have honly := heff.only
    generalize c.req.apis (handler c.svc c.req.view).2.2 = r at *
    obtain ⟨x, rfl⟩ : ∃ x, r = c.req.withApi x := ⟨_, honly⟩
    refine ⟨⟨⟨hr', h.type, h.idle⟩, rfl, h.raw, h.code, h.echo⟩, ?_, ?_⟩
    · rcases h.begun with hp | hsimple
      · exact .inl hp
      · exact .inr { hsimple with }
    · intro ht hst hnil hb
      rcases h.begun with hp | hsimple
      · have hpk := hp (by rw [show c.req.status = .eof from hst]; exact nofun)
        exact (hnames hpk).trans (h.rest ht hst hnil hb)
      · rw [show (c.req.withApi x).responceHasbody = false from hsimple.body] at hb
        cases hb
  dsimp only [Run.handled]
  generalize ({ c with svc := (handler c.svc c.req.view).2.1
                       req := c.req.apis (handler c.svc c.req.view).2.2 } : Run σ) = d at *
  split
  · rename_i hd
    obtain ⟨-, rfl⟩ := Prod.mk.inj hd
    exact afterEndOfData_sendInv h' hs'
  rename_i hd
  cases hd
  split
  · exact hs'.close
  rename_i hst
  have hst' : d.req.status = .nothing := not_not.mp hst
  obtain ⟨hb, hp⟩ := h'.idle hst'
  split
  · obtain ⟨h1, h2, ⟨out, h3⟩, h4⟩ := respond204 cfg hs' hst' hb hp h'.ready t
    have hty : (d.respond cfg t .ec204).2.req.side.IsMod := h'.type
    have hecho : (d.respond cfg t .ec204).2.req.echoBody.isSome = true →
        (d.respond cfg t .ec204).2.req.rd.eofReceived = true := h'.echo
    split
    · rename_i heq
      rw [heq] at h3
      exact h3.close
    · rename_i heq
      rw [heq] at h1 h2 h3 h4 hty hecho
      exact h1.afterEndOfData h2 hty hecho h3 h4
  · split
    · refine afterEndOfData_sendInv ?_ (hs'.setCode hst' .ec206)
      refine ⟨⟨⟨h'.ready.unpacked hp rfl rfl rfl rfl rfl rfl, h'.type, h'.idle⟩, rfl, h'.raw,
        .inr rfl, h'.echo⟩, .inl fun hne => absurd hst' hne, ?_⟩
      intro _ hst2
      rw [show (d.setCode .ec206).req.status = .nothing from hst'] at hst2
      cases hst2
    · exact hs'.reject cfg hst' hb hp t _

/-! ## The rest of the response -/

/-- The loop of `send_remaining_response`. -/
structure InRest (P : Premises) (c : Run σ) : Prop extends AfterBody P c [] where
  packed : c.req.status ≠ .nothing → c.req.packed = true

section

variable (h : InRest P c) (hs : c.Sends P [] cs q)
include h hs

theorem InRest.sendInv :
    SendInv P { c with pc := .sendRest } :=
  ⟨[], cs, q, hs, ⟨{ h with }, rfl, h.raw, h.code, h.echo⟩, h.packed⟩

theorem InRest.ended (hend : c.req.AtEnd) : SendInv P (c.finish .ok) := by
  obtain ⟨hnil, hst⟩ := hend
  refine ⟨[], cs, q, hs, ?_, ?_⟩
  · refine fun _ _ _ => ⟨rfl, hnil, h.code, ?_⟩
    rcases hst with hst | ⟨hst, -⟩
    · exact .inr (.inl hst)
    · exact .inl hst
  · rintro - ht - - ⟨h', out, hmem, ha⟩
    obtain rfl := hs.queue.head_mem hmem
    have hpk : c.req.packed = true := by
      apply h.packed
      rcases hst with hst | ⟨hst, -⟩ <;> rw [hst] <;> exact nofun
    obtain ⟨hn, hb⟩ := h.ready.silent ht hpk ha
    rcases hst with hst | ⟨-, hb' | hn'⟩
    · refine ⟨hnil, ?_⟩
      have hq := hs.queue
      rw [show c.req.side.status = .trailers from hst] at hq
      cases hq with
      | heads _ hi _ => cases hi
      | trailers _ _ _ _ htb => exact ⟨_, (htb ht).2.1, mem_append_right _ mem_cons_self⟩
    · rw [show c.req.side.responceHasbody = false from hb'] at hb
      cases hb
    · rw [show c.req.side.trailerNames.isSome = false from hn'] at hn
      cases hn

theorem restUpdate_sendInv
    (hnil : c.req.block.bytes = []) (hok : UpdateOk P c.req) : SendInv P (c.restUpdate cfg) := by
  have hu := updateSendStatus_updated cfg hs h.ready hnil h.type h.packed (fun _ => rfl)
    (fun _ => h.code) hok
  have honly := updateSendStatus_only cfg c.req
  have hty : (updateSendStatus cfg c.req).2.side.type = c.req.side.type := by rw [honly]; rfl
  have hcode : (updateSendStatus cfg c.req).2.side.returnCode = c.req.side.returnCode := by
    rw [honly]; rfl
  have hecho : (updateSendStatus cfg c.req).2.echoBody = c.req.echoBody := by rw [honly]
  have hrd : (updateSendStatus cfg c.req).2.rd = c.req.rd := by rw [honly]
  obtain ⟨q', hs'⟩ := hu.sent
  have h' : InRest P { c with req := (updateSendStatus cfg c.req).2 } := by
    refine ⟨⟨⟨hu.ready, h.type.of_type hty, fun hst => absurd hst hu.begun⟩, rfl, hu.raw,
      h.code.of_code hcode, ?_⟩, fun _ => hu.packed⟩
    rw [hecho, hrd]
    exact h.echo
  have heof := hu.eof
  have hne := hu.not_error
  unfold Run.restUpdate
  generalize updateSendStatus cfg c.req = r at hs' h' heof hne
  obtain ⟨ret, req⟩ := r
  cases ret with
  | ok => exact h'.sendInv hs'
  | eof => exact h'.ended hs' (heof rfl)
  | error => exact absurd rfl hne

/-- Behind the formatting there is a block to send, so the status stays. -/
theorem restUpdate_formatted
    (hst : c.req.status = .body ∨ c.req.status = .eof ∧ c.req.block.bytes ≠ []) :
    SendInv P (c.restUpdate cfg) := by
  have hupd : updateSendStatus cfg c.req = (.ok, c.req) := by
    unfold updateSendStatus
    rcases hst with hst | ⟨hst, hne⟩
    · rw [hst]
    · rw [hst]
      dsimp only
      rw [if_neg hne]
  unfold Run.restUpdate
  rw [hupd]
  exact h.sendInv hs

end

theorem IoEffect.rd {calls : List ApiCall} {c' : Run σ} (he : IoEffect calls c c') :
    ∃ n, c'.req.rd = { c.req.rd with i206UseOriginalBody := n } := by
  have h := he.api.only
  have hrd := congrArg Req.rd h
  exact ⟨_, hrd⟩

section

variable (h : InRest P c)
include h

theorem serviceIo_inRest (hs : c.Sends P [] cs q) (a : IoArgs) :
    InRest P (c.serviceIo false a).2 ∧ (c.serviceIo false a).2.Sends P [] cs q := by
  obtain ⟨calls, heff, hcalls⟩ := serviceIo_effect c false a
  obtain ⟨hk, -⟩ := io_calls_ok h.ready hcalls
  obtain ⟨hst, hb, hpk, -, hcode⟩ := heff.side
  obtain ⟨n, hrd⟩ := heff.rd
  refine ⟨⟨⟨serviceIo_active h.toActive false a, rfl, ?_, h.code.of_code hcode, ?_⟩, ?_⟩, heff.sends hs hk⟩
  · rw [hb]
    exact h.raw
  · rw [heff.echo, hrd]
    exact h.echo
  · rw [hst, hpk]
    exact h.packed

/-- A service that is productive gives data or reports the end when there is room. -/
theorem serviceIo_productive (hp : P.productive) {took : Option Nat} {c' : Run σ}
    (heq : c.serviceIo false ⟨true, maxChunkSize, none, true⟩ = (.ok (.data []) took, c')) : False := by
  unfold Run.serviceIo at heq
  rw [if_neg (by decide)] at heq
  split at heq
  · rename_i ring hring
    have heof : c.req.rd.eofReceived = true := h.echo (by rw [hring]; rfl)
    unfold Run.modEchoIo at heq
    dsimp only at heq
    rw [if_pos rfl, heof] at heq
    have h1 := congrArg Prod.fst heq
    simp only [and_true, IoRes.ok.injEq] at h1
    have h2 := h1.1
    split at h2
    · cases h2
    · rename_i hne
      exact hne (IoRead.data.inj h2)
  · split at heq
    · cases heq
    rename_i io hio
    obtain ⟨m, hm, hio⟩ := Option.bind_eq_some_iff.mp hio
    have hprod := (h.ready.service m hm).productive hp io hio c.svc c.req.view
      ⟨true, maxChunkSize, none, true⟩ rfl (by decide)
    have h1 := congrArg Prod.fst heq
    dsimp only [Run.handled] at h1
    unfold IoRes.clip at h1
    split at h1
    · rename_i out took' hout
      simp only [IoRes.ok.injEq, IoRead.data.injEq] at h1
      rcases take_eq_nil_iff.mp h1.1 with hz | hz
      · cases hz
      · rw [hz] at hout
        exact hprod _ hout
    · rename_i r took' hne _
      simp only [IoRes.ok.injEq] at h1
      exact hne _ h1.1
    · cases h1

theorem restBody_sendInv (hs : c.Sends P [] cs q)
    (hnil : c.req.block.bytes = []) (hst : c.req.status = .body) : SendInv P (c.restBody cfg) := by
  obtain ⟨h', hs'⟩ := serviceIo_inRest h hs ⟨true, maxChunkSize, none, true⟩
  obtain ⟨calls, heff, -⟩ := serviceIo_effect c false ⟨true, maxChunkSize, none, true⟩
  obtain ⟨hst', hb', -⟩ := heff.side
  have hprod := @serviceIo_productive σ P c h
  -- the state behind the formatting of a block that is empty or raw
  have hfmt : ∀ (d : Run σ) (atEof : Bool), Ready P d.req.side → d.req.side.IsMod →
      d.req.side.Successful → (d.req.echoBody.isSome = true → d.req.rd.eofReceived = true) →
      d.Sends P [] cs q → d.req.status = .body → (Block.out d.req.block).bytes = [] →
      (atEof = true → d.req.block.bytes = []) → (atEof = false → d.req.block.bytes ≠ []) →
      SendInv P ({ d with req := formatBody d.req atEof }.restUpdate cfg) := by
    intro d atEof hready htype hcode hecho hsd hstd hout heof hne
    have hf := formatBody_formatted hsd hready hstd hout (Block.raw_of_out_nil hout) atEof heof
      (fun _ => rfl)
    have honly := formatBody_only d.req atEof
    obtain ⟨cs', q', hs2⟩ := hf.sent
    have hbody : d.req.responceHasbody = true := by
      have hq := hsd.queue
      rw [show d.req.side.status = .body from hstd] at hq
      cases hq with
      | heads _ hi _ => cases hi
      | body _ hb _ _ => exact hb
    refine restUpdate_formatted cfg ⟨⟨⟨hf.ready, htype.of_type ?_, fun h' => absurd h' hf.begun⟩, rfl, hf.raw,
      hcode.of_code ?_, ?_⟩, fun _ => hf.packed⟩ hs2 ?_
    · exact (congrArg (fun r => r.side.type) honly).trans rfl
    · exact (congrArg (fun r => r.side.returnCode) honly).trans rfl
    · rw [show (formatBody d.req atEof).echoBody = d.req.echoBody by rw [honly],
        show (formatBody d.req atEof).rd = d.req.rd by rw [honly]]
      exact hecho
    · rw [formatBody_eq hbody]
      cases atEof with
      | true =>
        simp only [lastChunkBytes]
        split_ifs <;> simp [crlf]
      | false =>
        rw [if_neg (hne rfl)]
        exact .inl hstd
  unfold Run.restBody
  split
  · rename_i heq
    rw [heq] at hs'
    exact hs'.close
  · rename_i heq
    rw [heq] at hs'
    exact hs'.fault
  · rename_i heq
    rw [heq] at h' hs' hst' hb'
    have hnil' : _ = [] := (congrArg Piece.bytes hb').trans hnil
    exact hfmt _ true h'.ready h'.type h'.code h'.echo hs' (hst'.trans hst)
      (Block.out_of_nil hnil') (fun _ => hnil') (by rintro ⟨⟩)
  rename_i out took d heq
  rw [heq] at h' hs' hst' hb'
  have hnil' : d.req.block.bytes = [] := (congrArg Piece.bytes hb').trans hnil
  have hst2 : d.req.status = .body := hst'.trans hst
  split
  · rename_i hout
    subst hout
    have hnp : ¬ P.productive := fun hp => hprod hp heq
    refine ⟨[], cs, q, hs', ?_, fun _ _ _ hp => absurd hp hnp⟩
    exact fun _ _ _ => ⟨rfl, hnil', h'.code, .inr (.inr ⟨hst2, hnp⟩)⟩
  rename_i hout
  have hfill := hs'.fill (Block.out_of_nil hnil')
    ((Block.raw_of_nil hnil').trans hnil'.symm) out
  have hblk : (⟨.raw, 0, d.req.side.block.bytes ++ out⟩ : Block) = ⟨.raw, 0, out⟩ := by
    rw [show d.req.side.block.bytes = [] from hnil', nil_append]
  rw [hblk] at hfill
  exact hfmt { d with
    req := { d.req with block := ⟨.raw, 0, out⟩ }
    hist := { d.hist with produced := d.hist.produced ++ out } } false
    (h'.ready.moved _ _) h'.type h'.code h'.echo hfill hst2 rfl (by rintro ⟨⟩) fun _ => hout

theorem sendRestStep_sendInv (hs : c.Sends P [] cs q) (hpc : c.pc = .sendRest)
    (hok : UpdateOk P c.req) (t : Tick) : SendInv P (c.sendRestStep cfg t) := by
  unfold Run.sendRestStep
  split
  · rename_i hne
    have hst : c.req.status ≠ .nothing := fun hst => hne (h.idle hst).1
    split
    · exact hs.close
    unfold Run.sendCurrentBlock
    rw [if_neg hne]
    cases t.write with
    | none => exact hs.close
    | some n =>
      obtain ⟨hsend, hraw⟩ := hs.write h.raw hne n
      refine ⟨[], cs, q, hsend, ?_⟩
      simp only [hpc]
      exact ⟨⟨⟨h.ready.moved _ _, h.type, fun hst' => absurd hst' hst⟩, rfl, hraw, h.code, h.echo⟩, h.packed⟩
  · rename_i hnil
    have hnil' : c.req.block.bytes = [] := not_not.mp hnil
    split
    · rename_i hst
      exact restBody_sendInv cfg h hs hnil' hst
    · exact restUpdate_sendInv cfg h hs hnil' hok

end

/-- The response to an OPTIONS request ends it, complete or not. -/
theorem sendOptions_ended {pre : List QBlock} (hs : c.Sends P pre cs q) (hpre : pre ≠ [])
    (hst : c.req.status = .nothing) : SendInv P (c.finish .ok) := by
  obtain ⟨rfl, rfl, hb⟩ := hs.queue_nil hst
  refine ⟨pre, [], [], hs, ?_, ?_⟩
  · intro _ hb'
    rw [show (c.finish .ok).req.responceHasbody = false from hb] at hb'
    cases hb'
  · rintro - ht - - ⟨h', out, hmem, ha⟩
    rcases hs.pre_ok with hnil | ⟨h'', out', rfl, hsil⟩
    · exact absurd hnil hpre
    · cases mem_singleton.mp hmem
      rw [hsil ht] at ha
      cases ha

theorem sendOptionsStep_sendInv {pre : List QBlock} (hs : c.Sends P pre cs q) (hpre : pre ≠ [])
    (hraw : Block.raw c.req.block = []) (hst : c.req.status = .nothing) (hpc : c.pc = .sendOptions)
    (t : Tick) : SendInv P (c.sendOptionsStep t) := by
  have hend := sendOptions_ended hs hpre hst
  unfold Run.sendOptionsStep
  split
  · exact hend
  unfold Run.sendCurrentBlock
  split_ifs with hnil
  · dsimp only
    rw [if_pos hnil]
    exact hend
  cases t.write with
  | none => exact hend
  | some n =>
    obtain ⟨hsend, hraw'⟩ := hs.write hraw hnil n
    dsimp only
    split
    · exact sendOptions_ended hsend hpre hst
    · refine ⟨pre, cs, q, hsend, ?_⟩
      simp only [hpc]
      exact ⟨hpre, (hs.queue_nil hst).1, hraw', hst⟩

end End

/-! ## Steps and runs -/

/-- **A step of the server** carries the invariant of the sending side on. -/
theorem step_sendInv (hcfg : cfg.ServicesOk P) {c : Run σ} (h : SendInv P c) (hok : StepOk P c)
    (t : Tick) : SendInv P (c.step cfg t) := by
  obtain ⟨pre, cs, q, hs, hst⟩ := h
  refine SendInv.checked ?_
  unfold Run.advance
  have hstage := hst
  unfold Stage at hstage
  generalize hpc : c.pc = pc at hstage
  cases pc with
  | start => exact startStep_sendInv cfg hcfg hstage.1 hstage.2 hs t
  | readHeader buf back => exact readHeaderStep_sendInv cfg hcfg hpc hstage.1 hstage.2 hs t
  | encaps i => exact encapsStep_sendInv cfg hstage hs t i
  | readEncaps i buf remains => exact readEncapsStep_sendInv cfg hstage hs t i buf remains
  | sendOptions => exact sendOptionsStep_sendInv hs hstage.1 hstage.2.2.1 hstage.2.2.2 hpc t
  | previewRead => exact previewReadStep_sendInv cfg hstage.1 hstage.2.1 hstage.2.2 hs t
  | previewParse => exact previewParseStep_sendInv cfg hstage.1 hstage.2.1 hstage.2.2 hs t
  | preview eof => exact previewStep_sendInv cfg hstage.1 hstage.2.1 hs t hstage.2.2
  | fakePreview => exact fakePreviewStep_sendInv cfg hstage.1 hstage.2 hs t
  | gsbTop l =>
    refine gsbTop_sendInv cfg ⟨hstage.1, ⟨cs, q, hs⟩, hstage.2, ?_, ?_⟩ t
    · intro hl hunlocked
      apply hstage.1.pre_nil
      by_contra hpo
      have := hok.locked hl l (.inl hpc) (by simpa using hpo)
      rw [hunlocked] at this
      cases this
    · exact fun hunlocked => hok.update (.inl ⟨⟨l, hpc⟩, hunlocked⟩)
  | gsbInner l => exact gsbInner_sendInv cfg ⟨hstage.1, ⟨cs, q, hs⟩, hstage.2.1, hstage.2.2⟩ t
  | endOfData =>
    obtain rfl := hstage.1.pre
    exact endOfDataStep_sendInv cfg ⟨hstage.1, hstage.2, fun ht => hok.rest ht hpc⟩ hs t
  | sendRest =>
    obtain rfl := hstage.1.pre
    exact sendRestStep_sendInv cfg ⟨hstage.1, hstage.2⟩ hs hpc (hok.update (.inr hpc)) t
  | finished ret | fault => exact ⟨pre, cs, q, hs, hst⟩

theorem run_sendInv (hcfg : cfg.ServicesOk P) {c : Run σ} (h : SendInv P c) {ts : List Tick}
    (hok : Machine.AllSteps (Run.step cfg) (fun c _ => StepOk P c) c ts) :
    SendInv P (Machine.run (Run.step cfg) c ts) := by
  have hstep : ∀ (c : Run σ) (t : Tick), SendInv P c → StepOk P c → SendInv P (c.step cfg t) :=
    fun _ t hi ho => step_sendInv cfg hcfg hi ho t
  exact Machine.run_inv hstep h hok

end CIcap
