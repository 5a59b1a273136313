import CIcap.Request.Head

/-! # The invariant of the sending side

`Sent` relates the wire to the queue of the response, `Ready` collects what is known about the
request while a response can still be built. Each operation of the sending side (a call of the
service API, a write, the next block, body data, the formatting of a chunk, a response written at
once) has one lemma that says how it carries the invariant on.
-/

namespace CIcap

open CText Pieces List

variable {σ : Type} (cfg : Config σ) {P : Premises}

/-- The pieces on the wire and the rest of the current block are the queued blocks `q` of the
response, behind a head `pre` that was written before it began; the chunks of `q` and the data
that are not a chunk yet are what the service has produced. -/
structure Sent (P : Premises) (s : Side σ) (wire : List Seg) (produced : List UInt8)
    (pre : List QBlock) (cs : List (List UInt8)) (q : List QBlock) : Prop where
  writes : Writes wire (Block.out s.block) (pre ++ q)
  queue : Queue P s s.status cs q
  data : produced = cs.flatten ++ Block.raw s.block
  src : s.block.src ≠ .interim
  pre_ok : pre = [] ∨ ∃ h out, pre = [(.head h, out)] ∧ (P.trailers → h.announces = false)
  pre_locked : P.locked → pre ≠ [] → q = []

/-- What is known about the request while a response can be built. -/
structure Ready (P : Premises) (s : Side σ) : Prop where
  third : P.keeps → s.IsMod → NoThirdHeader s.entities
  service : ∀ m, s.mod = some m → ServiceOk P m
  plain : P.trailers → s.xheaders.announces = false
  allowed : s.trailerNames.isSome = true → s.allowTrailers = true
  named : ∀ n ∈ s.trailerNames, Headers.named trailerName n = true
  announced : P.room → s.packed = true → s.trailerNames.isSome = true →
    s.responceHasbody = true → s.Successful → s.responseHeader.announces = true
  silent : P.trailers → s.packed = true → s.responseHeader.announces = true →
    s.trailerNames.isSome = true ∧ s.responceHasbody = true
  bodied : P.trailers → s.packed = true → s.trailerNames.isSome = true →
    s.responceHasbody = true

/-! ## Changes the queue does not notice -/

variable {s : Side σ} {j : Nat} {es : List QBlock}

theorem Queue.transfer {s' : Side σ} {status : SendStatus} {cs : List (List UInt8)}
    {q : List QBlock} (h : Queue P s status cs q) (hbody : s'.responceHasbody = s.responceHasbody)
    (hpacked : s'.packed = s.packed) (hhead : s'.responseHeader = s.responseHeader)
    (hcode : s.packed = true → s'.Successful → s.Successful)
    (hnames : s.packed = true → s'.trailerNames = s.trailerNames)
    (hes : P.keeps → status ≠ .nothing → s.packed = true → s'.entities = s.entities) :
    Queue P s' status cs q := by
  have hhead' : s'.head = s.head := by simp only [Side.head, hhead]
  have hbuilt : Built s → Built s' := fun hb => ⟨hpacked.trans hb.packed, by rw [hhead]; exact hb.lines⟩
  induction h with
  | nothing hb => exact .nothing (hbody.trans hb)
  | heads hb hi he =>
    rw [← hhead']
    refine .heads (hbuilt hb) hi ⟨he.src, fun hk => ?_⟩
    rw [hes hk (by rintro rfl; cases hi) hb.packed]
    exact he.eq hk
  | body hb hr he hc =>
    rw [← hhead']
    refine .body (hbuilt hb) (hbody.trans hr) ⟨he.src, fun hk => ?_⟩ hc
    rw [hes hk (by decide) hb.packed]
    exact he.eq hk
  | closed hb hr he hc hl =>
    rw [← hhead']
    refine .closed (hbuilt hb) (hbody.trans hr) ⟨he.src, fun hk => ?_⟩ hc hl
    rw [hes hk (by decide) hb.packed]
    exact he.eq hk
  | bodiless hb hr he =>
    rw [← hhead']
    refine .bodiless (hbuilt hb) (hbody.trans hr) ⟨he.src, fun hk => ?_⟩
    rw [hes hk (by decide) hb.packed]
    exact he.eq hk
  | simple hr hp =>
    rw [← hhead]
    exact .simple (hbody.trans hr) (hpacked.trans hp)
  | trailers hb hq hn hroom htr ih =>
    refine .trailers (hbuilt hb) (ih (fun hk _ => hes hk (by decide))) ?_ ?_ ?_
    · rw [hnames hb.packed]
      exact hn
    · intro hr hb' hs
      rw [hhead]
      exact hroom hr (hbody ▸ hb') (hcode hb.packed hs)
    · rw [hbody, hhead]
      exact htr

/-- Calls of the service API leave the sending side as it is, apart from the entities of a
response that has not begun. -/
theorem Sent.api {r r' : Req σ} {calls : List ApiCall} {wire : List Seg} {produced : List UInt8}
    {pre q : List QBlock} {cs : List (List UInt8)} (h : Sent P r.side wire produced pre cs q)
    (he : ApiEffect calls r r')
    (hk : P.keeps → r.status ≠ .nothing → ∀ a ∈ calls, a.creates = false) :
    Sent P r'.side wire produced pre cs q := by
  have hnames := he.names
  have hkept := he.kept
  obtain ⟨x, rfl⟩ : ∃ x, r' = r.withApi x := ⟨_, he.only⟩
  exact { h with
    queue := h.queue.transfer rfl rfl rfl (fun _ h => h) hnames
      (fun hP hst hp => hkept hp (hk hP hst)) }

theorem Ready.api {r r' : Req σ} {calls : List ApiCall} (h : Ready P r.side)
    (he : ApiEffect calls r r') (hplain : P.trailers → ∀ a ∈ calls, a.plain = true) :
    Ready P r'.side := by
  have hnames := he.names
  have hallowed := he.allowed
  have hthird := he.noThird
  have hpl := he.plain
  have hnamed := he.named
  obtain ⟨x, rfl⟩ : ∃ x, r' = r.withApi x := ⟨_, he.only⟩
  constructor
  · exact fun hk ht => hthird (h.third hk ht)
  · exact h.service
  · exact fun hp => hpl (hplain hp) (h.plain hp)
  · intro hn
    rcases hallowed hn with h1 | h1
    · exact h.allowed h1
    · exact h1
  · exact hnamed h.named
  · intro hr hp hn
    exact h.announced hr hp ((congrArg Option.isSome (hnames hp)).symm.trans hn)
  · intro hr hp ha
    obtain ⟨h1, h2⟩ := h.silent hr hp ha
    exact ⟨(congrArg Option.isSome (hnames hp)).trans h1, h2⟩
  · intro hr hp hn
    exact h.bodied hr hp ((congrArg Option.isSome (hnames hp)).symm.trans hn)

/-- Before the head is built, the head and the code do not matter. -/
theorem Ready.unpacked {s' : Side σ} (h : Ready P s) (hp : s'.packed = false)
    (hes : s'.entities = s.entities) (hty : s'.type = s.type) (hmod : s'.mod = s.mod)
    (hx : s'.xheaders = s.xheaders) (hn : s'.trailerNames = s.trailerNames)
    (ha : s'.allowTrailers = s.allowTrailers) : Ready P s' := by
  have hno : s'.packed = true → False := by
    intro hp'
    rw [hp] at hp'
    cases hp'
  constructor
  · intro hk ht
    rw [hes]
    exact h.third hk (Side.IsMod.of_type ht hty.symm)
  · rw [hmod]
    exact h.service
  · rw [hx]
    exact h.plain
  · rw [hn, ha]
    exact h.allowed
  · rw [hn]
    exact h.named
  all_goals exact fun _ hp' => (hno hp').elim

theorem Ready.moved (h : Ready P s) (status : SendStatus) (block : Block) :
    Ready P { s with status := status, block := block } :=
  { h with }

/-! ## Writing -/

section Ops

variable {s : Side σ} {wire : List Seg} {produced : List UInt8} {pre q : List QBlock}
  {cs : List (List UInt8)}

variable (h : Sent P s wire produced pre cs q)
include h

/-- Body data stay back, so what is left of a block that is being written is all of it. -/
theorem Sent.send (hraw : Block.raw s.block = []) (hne : s.block.bytes ≠ []) (n : Nat) :
    Sent P { s with block := s.block.after n } (put wire (s.block.upTo n)) produced pre cs q := by
  have hsrc : s.block.src ≠ .raw := by
    intro hr
    rw [Block.raw, if_pos hr] at hraw
    exact hne hraw
  have hout : Block.out s.block = s.block := if_neg hsrc
  have hout' : Block.out (s.block.after n) = s.block.after n := if_neg hsrc
  have hraw' : Block.raw (s.block.after n) = [] := if_neg hsrc
  have hw := h.writes
  rw [hout] at hw
  constructor
  · rw [hout']
    exact hw.send n
  · exact h.queue.transfer rfl rfl rfl (fun _ h => h) (fun _ => rfl) (fun _ _ _ => rfl)
  · rw [hraw', ← hraw]
    exact h.data
  · exact h.src
  · exact h.pre_ok
  · exact h.pre_locked

/-- A new block is queued when nothing of the old one is left. -/
theorem Sent.queued (hnil : s.block.bytes = [])
    {s' : Side σ} {k : BlockSrc} {bs : List UInt8} {cs' : List (List UInt8)}
    (hblock : s'.block = ⟨k, 0, bs⟩) (hk : k ≠ .raw ∧ k ≠ .interim)
    (hq : Queue P s' s'.status cs' (q ++ [(k, bs)])) (hcs : cs'.flatten = cs.flatten)
    (hpre : P.locked → pre = []) : Sent P s' wire produced pre cs' (q ++ [(k, bs)]) where
  writes := by
    have hout : Block.out s'.block = ⟨k, 0, bs⟩ := by
      rw [hblock]
      exact if_neg hk.1
    rw [hout, ← append_assoc]
    exact h.writes.queue (Block.out_of_nil hnil) k bs
  queue := hq
  data := by
    have hraw : Block.raw s'.block = [] := by
      rw [hblock]
      exact if_neg hk.1
    rw [hraw, hcs, ← Block.raw_of_nil hnil]
    exact h.data
  src := by rw [hblock]; exact hk.2
  pre_ok := h.pre_ok
  pre_locked hl hne := absurd (hpre hl) hne

theorem Sent.move (hnil : s.block.bytes = [])
    {s' : Side σ} (hblock : s'.block.bytes = []) (hsrc : s'.block.src ≠ .interim)
    (hq : Queue P s' s'.status cs q) : Sent P s' wire produced pre cs q where
  writes := h.writes.rest_nil (Block.out_of_nil hnil) (Block.out_of_nil hblock)
  queue := hq
  data := by
    rw [Block.raw_of_nil hblock, ← Block.raw_of_nil hnil]
    exact h.data
  src := hsrc
  pre_ok := h.pre_ok
  pre_locked := h.pre_locked

/-- The service has produced body data: they wait to become a chunk. -/
theorem Sent.fill (hout : (Block.out s.block).bytes = [])
    (hraw : Block.raw s.block = s.block.bytes) (data : List UInt8) :
    Sent P { s with block := ⟨.raw, 0, s.block.bytes ++ data⟩ } wire (produced ++ data) pre cs q where
  writes := h.writes.rest_nil hout rfl
  queue := h.queue.transfer rfl rfl rfl (fun _ h => h) (fun _ => rfl) (fun _ _ _ => rfl)
  data := by
    have hd := h.data
    rw [hraw] at hd
    rw [hd, append_assoc]
    rfl
  src := by simp
  pre_ok := h.pre_ok
  pre_locked := h.pre_locked

/-- A response that is written at once, when none has begun. -/
theorem Sent.direct (hnil : s.block.bytes = [])
    (hst : s.status = .nothing) (hp : s.packed = false) (head : Headers) (ec : Option Ec)
    (out : List UInt8) (hpre : pre = []) :
    Sent P { s with responseHeader := head, returnCode := ec, status := .eof }
      (put wire ⟨.head head, 0, out⟩) produced [] [] [(.head head, out)] := by
  subst hpre
  have hq := h.queue
  rw [hst] at hq
  cases hq with
  | nothing hb =>
    refine ⟨?_, .simple hb hp, h.data, h.src, .inl rfl, fun _ hne => absurd rfl hne⟩
    exact h.writes.direct (Block.out_of_nil hnil) _ _
  | heads _ hi _ => cases hi

end Ops

/-! ## The next block -/

/-- The entities of the answer: without the request headers that came with a response. -/
def answerEntities (type : Option ReqType) (es : List Entity) : List Entity :=
  match type, es with
  | some .respmod, e :: es => if e.type = .reqHdr then es else e :: es
  | _, es => es

theorem dropRequestHeader_entities (req : Req σ) :
    (dropRequestHeader req).entities = answerEntities req.type req.entities := by
  unfold dropRequestHeader
  split
  · rename_i hty hes
    rw [hty, hes]
    unfold answerEntities
    dsimp only
    split
    · rfl
    · exact hes
  · rename_i hne
    unfold answerEntities
    split
    · rename_i hty hes
      exact (hne _ _ hty hes).elim
    · rfl

/-- What has to be known of the request when the next block is prepared. -/
structure UpdateOk (P : Premises) (req : Req σ) : Prop where
  room : P.room → req.status = .nothing → req.trailerNames.isSome = true →
    req.responseHeader.reset.Room (req.xheaders.lines.length + 6)
  body : P.trailers → req.status = .nothing → req.trailerNames.isSome = true →
    respCheckBody (answerEntities req.type req.entities) = true
  list : P.trailers → req.status = .eof → req.trailerNames.isSome = true →
    ∀ h, req.xtrailers = some h → h.lines ≠ []

def Req.AtEnd (req : Req σ) : Prop :=
  req.block.bytes = [] ∧ (req.status = .trailers ∨
    req.status = .eof ∧ (req.responceHasbody = false ∨ req.trailerNames.isSome = false))

/-- The request when the next block has been prepared. -/
structure Updated (P : Premises) (wire : List Seg) (produced : List UInt8) (pre : List QBlock)
    (cs : List (List UInt8)) (r : SendRet × Req σ) : Prop where
  sent : ∃ q, Sent P r.2.side wire produced pre cs q
  ready : Ready P r.2.side
  raw : Block.raw r.2.block = []
  begun : r.2.status ≠ .nothing
  packed : r.2.packed = true
  eof : r.1 = .eof → r.2.AtEnd
  not_error : r.1 ≠ .error

theorem takeWhile_eq_take {α : Type} {p : α → Bool} {l : List α} {n : Nat}
    (h : ∀ a ∈ l.take n, p a = true) (hn : ∀ a, l[n]? = some a → p a = false) :
    l.takeWhile p = l.take n := by
  induction l generalizing n with
  | nil => simp
  | cons a l ih =>
    cases n with
    | zero => simp [hn a rfl]
    | succ n =>
      have ha : p a = true := h a (by simp)
      rw [takeWhile_cons_of_pos ha]
      congr 1
      exact ih (fun b hb => h b (mem_cons_of_mem a hb)) hn

/-- The index of the next header block is the number of those queued before; the third one
repeats. -/
theorem nextHead_spec {status : SendStatus} (h : headNumber status = some j) :
    ∃ status' i, nextHead status = some (status', i) ∧ status' ≠ .nothing ∧
      (status = .head3 ∧ i = 2 ∧ status' = .head3 ∨ i = j ∧ headNumber status' = some (j + 1)) := by
  cases status <;> cases h <;> exact ⟨_, _, rfl, by decide, by decide⟩

theorem EntityBlocks.not_three (h : EntityBlocks P s 3 es)
    (hk : P.keeps) (hthird : NoThirdHeader s.entities) : False := by
  obtain ⟨hlen, -, hall⟩ := h.eq hk
  have hmem : s.entities[2] ∈ s.entities.take 3 := by
    rw [mem_take_iff_getElem]
    exact ⟨2, by omega, rfl⟩
  have hmem' : s.entities[2] ∈ s.entities.drop 2 := by
    rw [mem_drop_iff_getElem]
    exact ⟨0, by omega, rfl⟩
  exact absurd (hall _ hmem) (by rw [hthird _ hmem']; decide)

theorem EntityBlocks.all (h : EntityBlocks P s j es)
    (hj : P.keeps → ∀ e, s.entities[j]? = some e → e.isHdr = false) :
    AllEntityBlocks P s es := by
  refine ⟨h.src, fun hk => ?_⟩
  obtain ⟨-, heq, hall⟩ := h.eq hk
  rw [takeWhile_eq_take hall (hj hk)]
  exact heq

theorem EntityBlocks.next {e : Entity}
    (h : EntityBlocks P s j es) (he : P.keeps → s.entities[j]? = some e) (hhdr : e.isHdr = true)
    (i : Nat) : EntityBlocks P s (j + 1) (es ++ [(.entity i, e.headers.buf)]) := by
  constructor
  · intro q hq
    rcases mem_append.mp hq with hq | hq
    · exact h.src q hq
    · rw [mem_singleton.mp hq]
      exact ⟨i, rfl⟩
  · intro hk
    obtain ⟨-, heq, hall⟩ := h.eq hk
    have hlt : j < s.entities.length := (List.getElem?_eq_some_iff.mp (he hk)).1
    have htake : s.entities.take (j + 1) = s.entities.take j ++ [e] := by
      rw [take_add_one, he hk]
      rfl
    refine ⟨hlt, ?_, ?_⟩
    · rw [htake, map_append, map_append, heq]
      rfl
    · intro e' he'
      rw [htake] at he'
      rcases mem_append.mp he' with hm | hm
      · exact hall e' hm
      · rw [mem_singleton.mp hm]
        exact hhdr

section Update

variable {req : Req σ} {wire : List Seg} {produced : List UInt8} {pre q : List QBlock}
  {cs : List (List UInt8)}

section

variable (h : Sent P req.side wire produced pre cs q) (hr : Ready P req.side) (hnil : req.block.bytes = [])
include h hr hnil

theorem updated_begin (hpre : P.locked → pre = []) (hok : UpdateOk P req)
    (hst : req.status = .nothing) :
    Updated P wire produced pre cs (updateSendStatus cfg req) := by
  have hq : q = [] ∧ cs = [] := by
    have hq := h.queue
    rw [show req.side.status = .nothing from hst] at hq
    cases hq with
    | nothing _ => exact ⟨rfl, rfl⟩
    | heads _ hi _ => cases hi
  obtain ⟨rfl, rfl⟩ := hq
  have hbuilt := mkResponceHeader_built cfg req
  have hbody : (mkResponceHeader cfg req).responceHasbody =
      respCheckBody (answerEntities req.type req.entities) := by
    rw [mkResponceHeader_hasbody]
    exact congrArg respCheckBody (dropRequestHeader_entities _)
  have hthird : NoThirdHeader req.entities → NoThirdHeader (mkResponceHeader cfg req).entities :=
    mkResponceHeader_noThird cfg
  have hann := @mkResponceHeader_announces σ cfg req
  have hsil := @mkResponceHeader_silent σ cfg req
  have heq : updateSendStatus cfg req = (.ok, { mkResponceHeader cfg req with
      block := ⟨.head (mkResponceHeader cfg req).responseHeader, 0,
        (mkResponceHeader cfg req).responseHeader.buf⟩
      status := .respHead }) := by
    unfold updateSendStatus
    rw [hst]
  rw [heq]
  have honly := mkResponceHeader_only cfg req
  generalize mkResponceHeader cfg req = r at *
  obtain ⟨rh, es, tr, b, pk, rfl⟩ : ∃ rh es tr b pk, r = { req with
      responseHeader := rh, entities := es, trash := tr, responceHasbody := b, packed := pk } :=
    ⟨_, _, _, _, _, honly⟩
  constructor
  · refine ⟨[] ++ [(.head rh, rh.buf)], h.queued hnil rfl ⟨by simp, by simp⟩ ?_ rfl hpre⟩
    refine .heads ⟨hbuilt.packed, hbuilt.lines⟩ rfl ⟨by simp, fun _ => ?_⟩
    simp
  · constructor
    · exact fun hk ht => hthird (hr.third hk ht)
    · exact hr.service
    · exact hr.plain
    · exact hr.allowed
    · exact hr.named
    · intro hroom _ hn hb hs
      obtain ⟨names, hnames⟩ := Option.isSome_iff_exists.mp hn
      exact hann hnames (hr.named names hnames) hb hs (hok.room hroom hst hn)
    · exact fun ht _ ha => hsil (hr.plain ht) ha
    · exact fun ht _ hn => hbody.trans (hok.body ht hst hn)
  · exact if_neg (by simp)
  · exact nofun
  · exact hbuilt.packed
  · exact nofun
  · exact nofun

/-- The next header block, the body, or the end of a response without one. -/
theorem updated_heads (htype : req.side.IsMod)
    (hpre : P.locked → pre = []) {j : Nat} (hj : headNumber req.status = some j) :
    Updated P wire produced pre cs (updateSendStatus cfg req) := by
  obtain ⟨status', i, hnext, hst', hi⟩ := nextHead_spec hj
  have heq : updateSendStatus cfg req = nextBlock req status' i := by
    unfold updateSendStatus
    split <;> simp_all [headNumber]
  obtain ⟨es, rfl, rfl, hb, hes⟩ : ∃ es, cs = [] ∧ q = req.side.head :: es ∧ Built req.side ∧
      EntityBlocks P req.side j es := by
    have hq := h.queue
    rw [show req.side.status = req.status from rfl] at hq
    generalize req.status = st at hq hj
    cases hq with
    | heads hb hi' he =>
      rw [hj] at hi'
      cases hi'
      exact ⟨_, rfl, rfl, hb, he⟩
    | _ => cases hj
  -- under `keeps` the third header block is never reached
  have hidx : P.keeps → i = j ∧ headNumber status' = some (j + 1) := by
    intro hk
    rcases hi with ⟨h3, -, -⟩ | hi
    · rw [h3] at hj
      cases hj
      exact (hes.not_three hk (hr.third hk htype)).elim
    · exact hi
  rw [heq]
  unfold nextBlock
  split
  · rename_i e he
    obtain ⟨hget, hhdr⟩ := Option.filter_eq_some_iff.mp he
    have hnum : ∃ j', headNumber status' = some j' ∧
        EntityBlocks P req.side j' (es ++ [(.entity i, e.headers.buf)]) := by
      rcases hi with ⟨h3, -, h3'⟩ | hi
      · refine ⟨3, by rw [h3']; rfl, ?_, ?_⟩
        · intro q' hq'
          rcases mem_append.mp hq' with hm | hm
          · exact hes.src q' hm
          · rw [mem_singleton.mp hm]
            exact ⟨i, rfl⟩
        · intro hk
          rw [h3] at hj
          cases hj
          exact (hes.not_three hk (hr.third hk htype)).elim
      · refine ⟨j + 1, hi.2, hes.next (fun _ => ?_) hhdr i⟩
        rw [← hi.1]
        exact hget
    obtain ⟨j', hj', hes'⟩ := hnum
    constructor
    · refine ⟨_, h.queued hnil rfl ⟨by simp, by simp⟩ ?_ rfl hpre⟩
      exact .heads ⟨hb.packed, hb.lines⟩ hj' ⟨hes'.src, hes'.eq⟩
    · exact hr.moved _ _
    · exact if_neg (by simp)
    · exact hst'
    · exact hb.packed
    all_goals exact nofun
  · rename_i hnone
    have hall : AllEntityBlocks P req.side es := by
      refine hes.all fun hk e he => ?_
      rw [(hidx hk).1] at hnone
      by_contra hne
      have hsome : (req.entities[j]?).filter Entity.isHdr = some e :=
        Option.filter_eq_some_iff.mpr ⟨he, by simpa using hne⟩
      rw [hsome] at hnone
      cases hnone
    split
    · rename_i hbody
      constructor
      · refine ⟨_, h.move hnil hnil h.src ?_⟩
        have hq : Queue P { req.side with status := .body } .body []
            (req.side.head :: (es ++ [].map chunkBlock)) :=
          .body ⟨hb.packed, hb.lines⟩ hbody ⟨hall.src, hall.eq⟩ (by simp)
        rw [map_nil, append_nil] at hq
        exact hq
      · exact hr.moved _ _
      · exact Block.raw_of_nil hnil
      · exact nofun
      · exact hb.packed
      all_goals exact nofun
    · rename_i hbody
      have hbody' : req.responceHasbody = false := by simpa using hbody
      constructor
      · refine ⟨_, h.move hnil rfl nofun ?_⟩
        exact .bodiless ⟨hb.packed, hb.lines⟩ hbody' ⟨hall.src, hall.eq⟩
      · exact hr.moved _ _
      · rfl
      · exact nofun
      · exact hb.packed
      · exact fun _ => ⟨rfl, .inr ⟨rfl, .inl hbody'⟩⟩
      · exact nofun

/-- Behind the last chunk come the trailers, where they were promised. -/
theorem updated_eof (hpacked : req.packed = true) (hpre : P.locked → pre = [])
    (hcode : P.locked → req.side.Successful) (hok : UpdateOk P req) (hst : req.status = .eof) :
    Updated P wire produced pre cs (updateSendStatus cfg req) := by
  have hb : Built req.side := by
    have hq := h.queue
    rw [show req.side.status = .eof from hst] at hq
    cases hq with
    | heads _ hi _ => cases hi
    | closed hb _ _ _ _ | bodiless hb _ _ => exact hb
    | simple _ hp => exact absurd hpacked (by rw [show req.packed = false from hp]; decide)
  have hready : ∀ (b : Block) (xt : Option Headers) (st : SendStatus),
      Ready P { req with block := b, xtrailers := xt, status := st }.side := fun _ _ _ =>
    hr.moved _ _
  have heq : updateSendStatus cfg req =
      if (req.allowTrailers && req.trailerNames.isSome) = true then (.ok, startTrailers req)
      else (.eof, req) := by
    unfold updateSendStatus
    rw [hst]
    dsimp only
    rw [if_pos hnil]
  rw [heq]
  split
  · rename_i hsend
    simp only [Bool.and_eq_true] at hsend
    -- the list of trailers, or the one that stands for an empty list
    obtain ⟨xt, tb, hstart, htb⟩ : ∃ xt tb, startTrailers req =
        { req with xtrailers := xt, block := ⟨.trailers, 0, tb⟩, status := .trailers } ∧
        (P.trailers → tb ≠ []) := by
      unfold startTrailers
      split
      · rename_i l hl
        refine ⟨_, _, rfl, fun ht => Headers.buf_ne_nil ?_⟩
        rw [Headers.pack_lines]
        exact hok.list ht hst hsend.2 l hl
      · exact ⟨_, _, rfl, fun _ => by decide⟩
    rw [hstart]
    have hq := h.queue
    rw [show req.side.status = .eof from hst] at hq
    constructor
    · refine ⟨_, h.queued hnil rfl ⟨by simp, by simp⟩ ?_ rfl hpre⟩
      refine .trailers ⟨hb.packed, hb.lines⟩ ?_ hsend.2 ?_ ?_
      · exact hq.transfer rfl rfl rfl (fun _ h => h) (fun _ => rfl) (fun _ _ _ => rfl)
      · exact fun hroom hbody hs => hr.announced hroom hpacked hsend.2 hbody hs
      · intro ht
        have hbody := hr.bodied ht hpacked hsend.2
        exact ⟨hbody, htb ht, fun hl hroom => hr.announced hroom hpacked hsend.2 hbody (hcode hl)⟩
    · exact hready _ _ _
    · exact if_neg (by simp)
    · exact nofun
    · exact hpacked
    all_goals exact nofun
  · rename_i hno
    refine ⟨⟨q, h⟩, hr, Block.raw_of_nil hnil, by rw [hst]; exact nofun, hpacked, ?_, nofun⟩
    refine fun _ => ⟨hnil, .inr ⟨hst, .inr ?_⟩⟩
    by_contra hsome
    have hsome' : req.trailerNames.isSome = true := by rwa [Bool.not_eq_false] at hsome
    exact hno (by rw [show req.allowTrailers = true from hr.allowed hsome', hsome']; rfl)

/-- **The next block.** `update_send_status`, called when nothing is left of the current
block. -/
theorem updateSendStatus_updated (htype : req.side.IsMod)
    (hpacked : req.status ≠ .nothing → req.packed = true) (hpre : P.locked → pre = [])
    (hcode : P.locked → req.side.Successful) (hok : UpdateOk P req) : Updated P wire produced pre cs (updateSendStatus cfg req) := by
  cases hst : req.status with
  | nothing => exact updated_begin cfg h hr hnil hpre hok hst
  | respHead => exact updated_heads cfg h hr hnil htype hpre (j := 0) (by rw [hst]; rfl)
  | head1 => exact updated_heads cfg h hr hnil htype hpre (j := 1) (by rw [hst]; rfl)
  | head2 => exact updated_heads cfg h hr hnil htype hpre (j := 2) (by rw [hst]; rfl)
  | head3 => exact updated_heads cfg h hr hnil htype hpre (j := 3) (by rw [hst]; rfl)
  | eof => exact updated_eof cfg h hr hnil (hpacked (by rw [hst]; exact nofun)) hpre hcode hok hst
  | body =>
    have heq : updateSendStatus cfg req = (.ok, req) := by
      unfold updateSendStatus
      rw [hst]
    have hne : req.status ≠ .nothing := by rw [hst]; exact nofun
    rw [heq]
    exact ⟨⟨q, h⟩, hr, Block.raw_of_nil hnil, hne, hpacked hne, nofun, nofun⟩
  | trailers =>
    have heq : updateSendStatus cfg req = (.eof, req) := by
      unfold updateSendStatus
      rw [hst]
      rw [if_pos hnil]
    have hne : req.status ≠ .nothing := by rw [hst]; exact nofun
    rw [heq]
    exact ⟨⟨q, h⟩, hr, Block.raw_of_nil hnil, hne, hpacked hne, fun _ => ⟨hnil, .inl hst⟩, nofun⟩

end

theorem formatBody_eq (hbody : req.responceHasbody = true) (atEof : Bool) : formatBody req atEof =
      if atEof then { req with block := ⟨.last, 0, lastChunkBytes req⟩, status := .eof }
      else if req.block.bytes = [] then req
      else { req with block := ⟨.chunk, 0, chunkBytes req.block.bytes⟩ } := by
  unfold formatBody formatBodyChunk
  rw [hbody]
  cases atEof
  · by_cases h : req.block.bytes = [] <;> simp [h]
  · rfl

/-- The request when the body data have become a chunk or the body has been closed. -/
structure Formatted (P : Premises) (wire : List Seg) (produced : List UInt8) (pre : List QBlock)
    (r : Req σ) : Prop where
  sent : ∃ cs q, Sent P r.side wire produced pre cs q
  ready : Ready P r.side
  raw : Block.raw r.block = []
  begun : r.status ≠ .nothing
  packed : r.packed = true

/-- **Chunks.** `format_body_chunk`, called while the body is being sent. -/
theorem formatBody_formatted (h : Sent P req.side wire produced pre cs q) (hr : Ready P req.side)
    (hst : req.status = .body) (hout : (Block.out req.block).bytes = [])
    (hraw : Block.raw req.block = req.block.bytes) (atEof : Bool)
    (heof : atEof = true → req.block.bytes = []) (hpre : P.locked → pre = []) :
    Formatted P wire produced pre (formatBody req atEof) := by
  obtain ⟨es, hb, hbody, hes, hcs, rfl⟩ : ∃ es, Built req.side ∧ req.responceHasbody = true ∧
      AllEntityBlocks P req.side es ∧ (∀ d ∈ cs, d ≠ []) ∧
      q = req.side.head :: (es ++ cs.map chunkBlock) := by
    have hq := h.queue
    rw [show req.side.status = .body from hst] at hq
    cases hq with
    | heads _ hi _ => cases hi
    | body hb hr he hc => exact ⟨_, hb, hr, he, hc, rfl⟩
  have hready : ∀ (b : Block) (st : SendStatus), Ready P { req with block := b, status := st }.side :=
    fun _ _ => hr.moved _ _
  rw [formatBody_eq hbody]
  split_ifs with hat hnil
  · refine ⟨⟨cs, _, h.queued (heof hat) rfl ⟨by simp, by simp⟩ ?_ rfl hpre⟩, hready _ _,
      if_neg (by simp), nofun, hb.packed⟩
    have hlast : IsLastChunk (lastChunkBytes req) := by
      unfold lastChunkBytes
      split_ifs
      · exact .inr ⟨_, rfl⟩
      · exact .inl rfl
    exact .closed ⟨hb.packed, hb.lines⟩ hbody ⟨hes.src, hes.eq⟩ hcs hlast
  · exact ⟨⟨cs, _, h⟩, hr, Block.raw_of_nil hnil, by rw [hst]; exact nofun, hb.packed⟩
  -- the data leave the waiting part and become a chunk of the queue
  refine ⟨⟨cs ++ [req.block.bytes],
    req.side.head :: (es ++ (cs ++ [req.block.bytes]).map chunkBlock), ?_⟩, hready _ _,
    if_neg (by simp), by rw [hst]; exact nofun, hb.packed⟩
  have hq : Queue P { req.side with block := ⟨.chunk, 0, chunkBytes req.block.bytes⟩ } req.status
      (cs ++ [req.block.bytes])
      (req.side.head :: (es ++ (cs ++ [req.block.bytes]).map chunkBlock)) := by
    rw [hst]
    refine .body ⟨hb.packed, hb.lines⟩ hbody ⟨hes.src, hes.eq⟩ fun d hd => ?_
    rcases mem_append.mp hd with hd | hd
    · exact hcs d hd
    · rw [mem_singleton.mp hd]
      exact hnil
  have happ : req.side.head :: (es ++ (cs ++ [req.block.bytes]).map chunkBlock) =
      (req.side.head :: (es ++ cs.map chunkBlock)) ++ [chunkBlock req.block.bytes] := by simp
  refine ⟨?_, hq, ?_, nofun, h.pre_ok, fun hl hne => absurd (hpre hl) hne⟩
  · rw [happ, ← append_assoc]
    exact h.writes.queue hout _ _
  · have hd := h.data
    rw [show Block.raw req.side.block = req.block.bytes from hraw] at hd
    rw [hd, flatten_append, flatten_singleton]
    exact (append_nil _).symm

end Update

end CIcap
