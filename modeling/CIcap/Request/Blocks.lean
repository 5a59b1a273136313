import CIcap.Client.Filter
import CIcap.Request.Encapsulated

/-! # The encapsulated blocks that are sent

The server sends the header blocks of a response as `update_send_status` brings them up, the
client library those of a request as `client_send_request_headers` does. Both are followed here
to the end of the header blocks, and the blocks compared with the offsets in the head
(`encapsulated_offsets_iff`).
-/

namespace CIcap

open CText List

variable {σ : Type}

/-! ## The blocks -/

/-- The entities whose header blocks the calls of `update_send_status` bring up, one after the
other, until the body or the end of the response is reached within `n` calls. -/
def responseBlocks (cfg : Config σ) : Nat → Req σ → Option (List Nat)
  | 0, _ => none
  | n + 1, req =>
    match updateSendStatus cfg req with
    | (.ok, req') =>
      match req'.status, req'.block.src with
      | .body, _ => some []
      | _, .entity i => (responseBlocks cfg n req').map (i :: ·)
      | _, _ => none
    | _ => some []

/-- The entities whose header blocks `client_send_request_headers` brings up until it is
finished, each call writing the whole block, within `n` calls. -/
def requestBlocks : Nat → Client → Option (List Nat)
  | 0, _ => none
  | n + 1, c =>
    match c.sendRequestHeaders c.eofSent (some c.startHeaders.req.block.bytes.length) with
    | (.needsMore, c) =>
      match c.req.block.src with
      | .entity i => (requestBlocks n c).map (i :: ·)
      | _ => requestBlocks n c
    | (.ok, _) => some []
    | _ => none

/-- What `ci_response_pack` writes is what the server sends. -/
def ResponseEncapsulated (cfg : Config σ) (req : Req σ) : Prop :=
  Announces req.responseHeader (responsePack req).responseHeader (responsePack req).entities ∧
  ∃ n sent, responseBlocks cfg n { responsePack req with status := .respHead } = some sent ∧
    OffsetsMatch (responsePack req).entities sent

/-- What `ci_request_pack` writes is what the client sends. -/
def RequestEncapsulated (c : Client) : Prop :=
  Announces (previewHead c.req) (requestPack c.req).requestHeader (requestPack c.req).entities ∧
  ∃ n sent, requestBlocks n { c with status := .writeNothing } = some sent ∧
    OffsetsMatch (requestPack c.req).entities sent

/-- The client sends the request headers first, and it stops at a header list without lines. -/
def RequestOrder : List Entity → Prop
  | [] => True
  | [_] => True
  | [e, f] => e.type = .reqHdr ∧ f.type = .resHdr ∧ e.headers.lines ≠ []
  | _ => False

/-! ## The server -/

section Server

variable (cfg : Config σ)

/-- The entity at a position is a header list. -/
def HdrAt (es : List Entity) (k : Nat) : Prop := ∃ e, es[k]? = some e ∧ e.isHdr = true

variable {req : Req σ}

/-- The next header block, or the end of the header blocks. -/
theorem responseBlocks_succ {status : SendStatus} {i : Nat}
    (hnext : nextHead req.status = some (status, i)) :
    (HdrAt req.entities i → ∃ req' : Req σ, req'.status = status ∧ req'.entities = req.entities ∧
      ∀ n, responseBlocks cfg (n + 1) req = (responseBlocks cfg n req').map (i :: ·)) ∧
    (¬ HdrAt req.entities i → ∀ n, responseBlocks cfg (n + 1) req = some []) := by
  have hup : updateSendStatus cfg req = nextBlock req status i := by
    unfold updateSendStatus
    cases hs : req.status <;> simp_all [nextHead]
  have hnobody : status ≠ .body := by
    cases hs : req.status <;> simp_all [nextHead] <;> (rw [← hnext.1]; decide)
  constructor
  · rintro ⟨e, he, hhdr⟩
    have hblock : nextBlock req status i =
        (.ok, { req with block := ⟨.entity i, 0, e.headers.buf⟩, status := status }) := by
      simp [nextBlock, he, Option.filter, hhdr]
    refine ⟨{ req with block := ⟨.entity i, 0, e.headers.buf⟩, status := status }, rfl, rfl,
      fun n => ?_⟩
    rw [responseBlocks, hup, hblock]
    cases status with
    | body => exact absurd rfl hnobody
    | _ => rfl
  · intro hno n
    have hnone : (req.entities[i]?).filter Entity.isHdr = none := by
      rw [Option.filter_eq_none_iff]
      intro e he hhdr
      exact hno ⟨e, he, hhdr⟩
    rw [responseBlocks, hup, nextBlock, hnone]
    split_ifs <;> rfl

/-- The server does not come to an end with a third header block. -/
theorem responseBlocks_head3 (n : Nat) : ∀ {req : Req σ}, req.status = .head3 →
    HdrAt req.entities 2 → responseBlocks cfg n req = none := by
  induction n with
  | zero => intro req _ _; rfl
  | succ n ih =>
    intro req hs h2
    have hnext : nextHead req.status = some (.head3, 2) := by rw [hs]; rfl
    obtain ⟨req', hs', hes, hblocks⟩ := (responseBlocks_succ cfg hnext).1 h2
    rw [hblocks, ih hs' (by rw [hes]; exact h2)]
    rfl

/-- The header lists from `i` on, up to an entity that is none and is one of the first three. -/
def HdrRow (es : List Entity) (i : Nat) (sent : List Nat) : Prop :=
  ∃ m ≤ 2, i ≤ m ∧ sent = range' i (m - i) ∧ (∀ k < m, i ≤ k → HdrAt es k) ∧ ¬ HdrAt es m

/-- The blocks that are sent from a status on, when the entity at `i` is next. -/
theorem exists_responseBlocks {status : SendStatus} {i : Nat} (hi : i ≤ 2)
    (hnext : nextHead req.status = some (status, i))
    (hrest : ∀ (req' : Req σ) more, req'.status = status → req'.entities = req.entities →
      HdrAt req.entities i →
      ((∃ n, responseBlocks cfg n req' = some more) ↔ HdrRow req.entities (i + 1) more))
    (sent : List Nat) :
    (∃ n, responseBlocks cfg n req = some sent) ↔ HdrRow req.entities i sent := by
  obtain ⟨hcons, hnil⟩ := responseBlocks_succ cfg hnext
  have hsucc : (∃ n, responseBlocks cfg n req = some sent) ↔
      ∃ n, responseBlocks cfg (n + 1) req = some sent := by
    constructor
    · rintro ⟨n, hn⟩
      cases n with
      | zero => cases hn
      | succ n => exact ⟨n, hn⟩
    · rintro ⟨n, hn⟩
      exact ⟨n + 1, hn⟩
  have hrange : ∀ m, i < m → range' i (m - i) = i :: range' (i + 1) (m - (i + 1)) := by
    intro m hm
    rw [← range'_succ]
    congr 1
    omega
  rw [hsucc]
  by_cases hd : HdrAt req.entities i
  · obtain ⟨req', hs, hes, hblocks⟩ := hcons hd
    simp only [hblocks, Option.map_eq_some_iff]
    constructor
    · rintro ⟨n, more, hmore, rfl⟩
      obtain ⟨m, hm, him, rfl, hall, hno⟩ := (hrest req' more hs hes hd).mp ⟨n, hmore⟩
      refine ⟨m, hm, by omega, (hrange m him).symm, fun k hkm hk => ?_, hno⟩
      rcases hk.eq_or_lt with rfl | hlt
      · exact hd
      · exact hall k hkm hlt
    · rintro ⟨m, hm, him, rfl, hall, hno⟩
      have hlt : i < m := him.lt_of_ne (by rintro rfl; exact hno hd)
      obtain ⟨n, hn⟩ := (hrest req' _ hs hes hd).mpr
        ⟨m, hm, hlt, rfl, fun k hkm hk => hall k hkm (by omega), hno⟩
      exact ⟨n, _, hn, (hrange m hlt).symm⟩
  · simp only [hnil hd, Option.some.injEq, exists_const]
    constructor
    · rintro rfl
      exact ⟨i, hi, le_rfl, by simp, fun k hki hk => by omega, hd⟩
    · rintro ⟨m, -, him, rfl, hall, -⟩
      rcases him.eq_or_lt with rfl | hlt
      · simp
      · exact absurd (hall i hlt le_rfl) hd

/-- The server sends the header blocks in front, up to two of them. -/
theorem exists_responseBlocks_iff (req : Req σ) (hs : req.status = .respHead) (sent : List Nat) :
    (∃ n, responseBlocks cfg n req = some sent) ↔
      ∃ m ≤ 2, sent = range m ∧ (∀ k < m, HdrAt req.entities k) ∧ ¬ HdrAt req.entities m := by
  have hrow : (∃ n, responseBlocks cfg n req = some sent) ↔ HdrRow req.entities 0 sent := by
    refine exists_responseBlocks cfg (by omega)
      (show nextHead req.status = some (.head1, 0) by rw [hs]; rfl) (fun r1 s1 hs1 he1 _ => ?_) sent
    rw [← he1]
    refine exists_responseBlocks cfg (by omega)
      (show nextHead r1.status = some (.head2, 1) by rw [hs1]; rfl) (fun r2 s2 hs2 he2 _ => ?_) s1
    rw [← he2]
    refine exists_responseBlocks cfg le_rfl
      (show nextHead r2.status = some (.head3, 2) by rw [hs2]; rfl) (fun r3 s3 hs3 he3 h2 => ?_) s2
    constructor
    · rintro ⟨n, hn⟩
      rw [responseBlocks_head3 cfg n hs3 (by rw [he3]; exact h2)] at hn
      cases hn
    · rintro ⟨m, hm, hlt, -⟩
      omega
  rw [hrow]
  simp [HdrRow, range_eq_range']

theorem hdrAt_packed (es : List Entity) {k : Nat} (hk : k < 3) :
    HdrAt (packEntities (placeEntities es)) k ↔ HdrAt es k := by
  unfold HdrAt
  rw [packedEntity _ hk]
  cases es[k]? with
  | none => simp
  | some e =>
    simp only [Option.map_some, Option.some.injEq, exists_eq_left', Entity.packed_isHdr]
    rfl

/-- The header lists of a layout, by their positions. -/
theorem Layout.hdrAt_iff {es hs bs : List Entity} (hl : Layout es hs bs) (k : Nat) :
    HdrAt es k ↔ k < hs.length := by
  constructor
  · rintro ⟨e, he, hhdr⟩
    exact (hl.isHdr_iff he).mp hhdr
  · intro hk
    have he : es[k]? = some hs[k] := by
      rw [hl.split, getElem?_append_left hk, getElem?_eq_getElem hk]
    exact ⟨hs[k], he, (hl.isHdr_iff he).mpr hk⟩

/-- A response is sent as its head announces it exactly when the header lists come first and are
at most two. -/
theorem responseEncapsulated_iff (hopt : ∀ e ∈ req.entities, e.type ≠ .optBody) :
    ResponseEncapsulated cfg req ↔ (req.responseHeader.packed = false ∧ req.responseHeader.Room 1) ∧
      ∃ hs bs, Layout req.entities hs bs ∧ hs.length ≤ 2 := by
  have hann := announces_iff req.responseHeader hopt
  have hsend := fun sent => exists_responseBlocks_iff cfg
    { responsePack req with status := .respHead } rfl sent
  constructor
  · rintro ⟨hhead, n, sent, hblocks, hmatch⟩
    obtain ⟨hroom, hlen, hfits⟩ := hann.mp hhead
    obtain ⟨m, hm, rfl, -, -⟩ := (hsend sent).mp ⟨n, hblocks⟩
    refine ⟨hroom, _, _, hmatch.layout hlen hfits, ?_⟩
    simp only [length_range, length_take]
    omega
  · rintro ⟨hroom, hs, bs, hl, htwo⟩
    obtain ⟨n, hn⟩ := (hsend (range hs.length)).mpr
      ⟨hs.length, htwo, rfl, fun k hk => (hdrAt_packed _ (by omega)).mpr ((hl.hdrAt_iff k).mpr hk),
        fun hcon => by
          have := (hl.hdrAt_iff _).mp ((hdrAt_packed _ (by omega)).mp hcon)
          omega⟩
    exact ⟨hann.mpr ⟨hroom, hl.short, hl.fits⟩, n, _, hn, hl.offsetsMatch⟩

end Server

/-! ## The client -/

theorem getHeaders_eq_none_iff (es : List Entity) (type : EntityType) :
    getHeadersFromEntities es type = none ↔ ∀ e ∈ es, e.type ≠ type := by
  unfold getHeadersFromEntities
  rw [Option.map_eq_none_iff, find?_eq_none]
  constructor
  · intro h e he
    obtain ⟨k, hk⟩ := mem_iff_getElem?.mp he
    simpa using h (e, k) (by rw [mem_zipIdx_iff_getElem?]; exact hk)
  · rintro h ⟨e, k⟩ hmem
    rw [mem_zipIdx_iff_getElem?] at hmem
    simpa using h e (mem_of_getElem? hmem)

variable {e : Entity} {type : EntityType} {es : List Entity} {c : Client}

theorem getHeaders_cons_of_eq (he : e.type = type)
    (es : List Entity) : getHeadersFromEntities (e :: es) type = some (0, e.headers) := by
  simp [getHeadersFromEntities, he]

theorem getHeaders_spec {i : Nat} {h : Headers}
    (hget : getHeadersFromEntities es type = some (i, h)) :
    ∃ e, es[i]? = some e ∧ e.type = type ∧ e.headers = h := by
  obtain ⟨⟨e, k⟩, hfind, hp⟩ := Option.map_eq_some_iff.mp hget
  have hmem := mem_of_find?_eq_some hfind
  have htype := find?_some hfind
  rw [mem_zipIdx_iff_getElem?] at hmem
  obtain ⟨rfl, rfl⟩ := hp
  exact ⟨e, hmem, by simpa using htype, rfl⟩

/-- The entities whose header blocks the client sends: the request headers first, and nothing
behind an empty block. -/
def sentEntities (es : List Entity) : List Nat :=
  let res := ((getHeadersFromEntities es .resHdr).map Prod.fst).toList
  match getHeadersFromEntities es .reqHdr with
  | none => res
  | some (i, h) => if h.buf = [] then [i] else i :: res

namespace Client

theorem startHeaders_of_ne {c : Client} (hs : c.status ≠ .writeNothing) : c.startHeaders = c := by
  unfold startHeaders
  rw [if_neg hs]

theorem sendRequestHeaders_whole {c : Client} (hs : c.status ≠ .writeNothing) (hasEof : Bool)
    (hb : c.req.block.bytes ≠ []) :
    c.sendRequestHeaders hasEof (some c.req.block.bytes.length) =
      (c.writeBlock c.req.block.bytes.length).blockSent hasEof := by
  have hrest : (c.writeBlock c.req.block.bytes.length).req.block.bytes = [] := by
    simp [writeBlock, Pieces.Piece.after]
  simp only [sendRequestHeaders, startHeaders_of_ne hs, if_neg hb, hrest, ne_eq, not_true_eq_false,
    if_false]

end Client

/-- An empty block ends the sending of the headers. -/
theorem requestBlocks_empty (hs : c.status ≠ .writeNothing)
    (hb : c.req.block.bytes = []) (n : Nat) : requestBlocks (n + 1) c = some [] := by
  rw [requestBlocks]
  simp only [Client.sendRequestHeaders, Client.startHeaders_of_ne hs, if_pos hb]

/-- The entities whose blocks are sent when a block has been written with the given result. -/
def blocksAfter (n : Nat) : ClientRet × Client → Option (List Nat)
  | (.needsMore, c) =>
    match c.req.block.src with
    | .entity i => (requestBlocks n c).map (i :: ·)
    | _ => requestBlocks n c
  | (.ok, _) => some []
  | _ => none

theorem requestBlocks_succ (hs : c.status ≠ .writeNothing)
    (hb : c.req.block.bytes ≠ []) (n : Nat) : requestBlocks (n + 1) c =
      blocksAfter n ((c.writeBlock c.req.block.bytes.length).blockSent c.eofSent) := by
  rw [requestBlocks, Client.startHeaders_of_ne hs, Client.sendRequestHeaders_whole hs _ hb]
  rfl

theorem requestBlocks_mono (n : Nat) : ∀ {c : Client} {sent : List Nat},
    requestBlocks n c = some sent → requestBlocks (n + 1) c = some sent := by
  induction n with
  | zero => intro c sent h; cases h
  | succ n ih =>
    intro c sent h
    rw [requestBlocks] at h ⊢
    split at h
    · split at h
      · obtain ⟨more, hmore, rfl⟩ := Option.map_eq_some_iff.mp h
        rw [ih hmore]
        rfl
      · exact ih h
    · exact h
    · cases h

theorem requestBlocks_unique {m n : Nat} {s t : List Nat}
    (hm : requestBlocks m c = some s) (hn : requestBlocks n c = some t) : s = t := by
  have hadd : ∀ (k j : Nat) (u : List Nat), requestBlocks j c = some u →
      requestBlocks (j + k) c = some u := by
    intro k
    induction k with
    | zero => intro j u h; exact h
    | succ k ih => intro j u h; exact requestBlocks_mono _ (ih j u h)
  have h1 := hadd n m s hm
  have h2 := hadd m n t hn
  rw [Nat.add_comm, h2] at h1
  exact (Option.some.inj h1).symm

/-- Behind the header blocks only the preview is sent. -/
theorem requestBlocks_preview : ∀ (n : Nat) {c : Client},
    (c.status = .writeEofInfo ∧ 1 ≤ n) ∨ (c.status = .writePreview ∧ 2 ≤ n) ∨
      (c.status = .writePreviewInfo ∧ 3 ≤ n) → requestBlocks n c = some [] := by
  intro n
  induction n with
  | zero => intro c h; omega
  | succ n ih =>
    intro c h
    have hs : c.status ≠ .writeNothing := by
      rcases h with ⟨h, -⟩ | ⟨h, -⟩ | ⟨h, -⟩ <;> (rw [h]; decide)
    by_cases hb : c.req.block.bytes = []
    · exact requestBlocks_empty hs hb n
    · rw [requestBlocks_succ hs hb n]
      have hsame : (c.writeBlock c.req.block.bytes.length).status = c.status := rfl
      rcases h with ⟨h, hn⟩ | ⟨h, hn⟩ | ⟨h, hn⟩ <;> rw [Client.blockSent, hsame, h]
      · rfl
      · exact ih (.inl ⟨rfl, by omega⟩)
      · exact ih (.inr (.inl ⟨rfl, by omega⟩))

theorem blocksAfter_resHeadersSent (c : Client) (hasEof : Bool) :
    blocksAfter 3 (c.resHeadersSent hasEof) = some [] := by
  unfold Client.resHeadersSent
  split_ifs
  · exact requestBlocks_preview 3 (.inr (.inr ⟨rfl, le_rfl⟩))
  · exact requestBlocks_preview 3 (.inl ⟨rfl, by omega⟩)
  · rfl

theorem blocksAfter_mono {n : Nat} {res : ClientRet × Client} {sent : List Nat}
    (h : blocksAfter n res = some sent) : blocksAfter (n + 1) res = some sent := by
  obtain ⟨ret, c⟩ := res
  cases ret with
  | needsMore =>
    unfold blocksAfter at h ⊢
    dsimp only at h ⊢
    split at h
    · obtain ⟨more, hmore, rfl⟩ := Option.map_eq_some_iff.mp h
      rw [requestBlocks_mono n hmore]
      rfl
    · exact requestBlocks_mono n h
  | _ => exact h

/-- The client when the request headers have been written. -/
theorem blocksAfter_reqHeadersSent (c : Client) (hasEof : Bool) :
    blocksAfter 4 (c.reqHeadersSent hasEof) =
      some ((getHeadersFromEntities c.req.entities .resHdr).map Prod.fst).toList := by
  unfold Client.reqHeadersSent
  cases hget : getHeadersFromEntities c.req.entities .resHdr with
  | none => exact blocksAfter_mono (blocksAfter_resHeadersSent _ _)
  | some p =>
    obtain ⟨i, h⟩ := p
    -- the response headers are the current block; an empty one ends the sending
    have hrest : requestBlocks 4 (c.setBlock .writeResHeaders (.entity i) h.buf) = some [] := by
      by_cases hb : h.buf = []
      · exact requestBlocks_empty (by simp [Client.setBlock]) hb 3
      · rw [requestBlocks_succ (by simp [Client.setBlock]) hb 3]
        exact blocksAfter_resHeadersSent _ _
    show (requestBlocks 4 (c.setBlock .writeResHeaders (.entity i) h.buf)).map (i :: ·) = some [i]
    rw [hrest]
    rfl

/-- The client when the ICAP head has been written. -/
theorem blocksAfter_icapHeadersSent (c : Client) (hasEof : Bool) :
    blocksAfter 5 (c.icapHeadersSent hasEof) = some (sentEntities c.req.entities) := by
  unfold Client.icapHeadersSent sentEntities
  cases hget : getHeadersFromEntities c.req.entities .reqHdr with
  | none => exact blocksAfter_mono (blocksAfter_reqHeadersSent _ _)
  | some p =>
    obtain ⟨i, h⟩ := p
    show (requestBlocks 5 (c.setBlock .writeReqHeaders (.entity i) h.buf)).map (i :: ·) =
      some (if h.buf = [] then [i] else
        i :: ((getHeadersFromEntities c.req.entities .resHdr).map Prod.fst).toList)
    by_cases hb : h.buf = []
    · rw [requestBlocks_empty (by simp [Client.setBlock]) hb 4, if_pos hb]
      rfl
    · rw [requestBlocks_succ (by simp [Client.setBlock]) hb 4, if_neg hb]
      show (blocksAfter 4 (Client.reqHeadersSent _ _)).map (i :: ·) = _
      rw [blocksAfter_reqHeadersSent]
      rfl

/-- The header blocks of a packed request, when its head is not empty. -/
theorem requestBlocks_eq (hhead : (requestPack c.req).requestHeader.buf ≠ []) :
    requestBlocks 6 { c with status := .writeNothing } =
      some (sentEntities (requestPack c.req).entities) := by
  have hstart : ({ c with status := .writeNothing } : Client).startHeaders =
      ({ c with req := requestPack c.req } : Client).setBlock .writeIcapHeaders
        (.head (requestPack c.req).requestHeader) (requestPack c.req).requestHeader.buf := rfl
  have hsame : requestBlocks 6 { c with status := .writeNothing } =
      requestBlocks 6 ({ c with status := .writeNothing } : Client).startHeaders := by
    rfl
  rw [hsame, hstart, requestBlocks_succ (by simp [Client.setBlock]) hhead 5]
  exact blocksAfter_icapHeadersSent _ _

theorem Headers.buf_eq_nil_iff (h : Headers) : h.buf = [] ↔ h.lines = [] := by
  unfold Headers.buf
  split_ifs with hl <;> simp [hl, crlf]

theorem getHeaders_cons_of_ne (he : e.type ≠ type)
    (es : List Entity) : getHeadersFromEntities (e :: es) type =
      (getHeadersFromEntities es type).map fun p => (p.1 + 1, p.2) := by
  unfold getHeadersFromEntities
  rw [zipIdx_cons', find?_cons_of_neg (by simpa using he), find?_map, Option.map_map,
    Option.map_map]
  rfl

theorem packedEntities_types (es : List Entity) :
    (packEntities (placeEntities es)).map Entity.type = es.map Entity.type := by
  have h := congrArg (map Prod.fst) (packEntities_entries (placeEntities es))
  rw [map_map, map_map] at h
  exact h.trans (placeEntities_types es)

/-- The header list of an entity of a packed request. -/
theorem packedEntity_headers {k : Nat} {e' : Entity} (hk : k < 3)
    (he : es[k]? = some e) (he' : (packEntities (placeEntities es))[k]? = some e')
    (hhdr : e.isHdr = true) : e'.type = e.type ∧ (e'.headers.buf = [] ↔ e.headers.lines = []) := by
  rw [packedEntity _ hk, he] at he'
  have hhdr' : ({ e with start := (bytesBefore es k : Int) } : Entity).isHdr = true := hhdr
  have hlist : e' = { e with start := (bytesBefore es k : Int), headers := e.headers.pack } := by
    rw [← Option.some.inj he']
    exact if_pos hhdr'
  rw [hlist, Headers.buf_eq_nil_iff]
  exact ⟨rfl, by rw [Headers.pack_lines]⟩

/-- The blocks of a layout in the order of the client are sent in order. -/
theorem sentEntities_layout {hs bs : List Entity} (hl : Layout es hs bs) (ho : RequestOrder hs) :
    sentEntities (packEntities (placeEntities es)) = range hs.length := by
  have htypes := packedEntities_types es
  have hpacked : ∀ k e', k < 3 → (packEntities (placeEntities es))[k]? = some e' → ∀ e,
      es[k]? = some e → e.isHdr = true → e'.type = e.type ∧ (e'.headers.buf = [] ↔ e.headers.lines = []) :=
    fun k e' hk he' e he hhdr => packedEntity_headers hk he he' hhdr
  generalize packEntities (placeEntities es) = ps at htypes hpacked ⊢
  rw [hl.split] at htypes
  -- no header list is behind those of the layout
  have hrest : ∀ qs : List Entity, qs.map Entity.type = bs.map Entity.type →
      ∀ t, t = .reqHdr ∨ t = .resHdr → getHeadersFromEntities qs t = none := by
    intro qs hqs t ht
    rw [getHeaders_eq_none_iff]
    intro q hq hcon
    have hmem : t ∈ bs.map Entity.type := by rw [← hqs, ← hcon]; exact mem_map_of_mem hq
    obtain ⟨b, hb, rfl⟩ := mem_map.mp hmem
    have := hl.bodies b hb
    rcases ht with ht | ht <;> simp [Entity.isHdr, ht] at this
  rcases hs with _ | ⟨e, _ | ⟨f, _ | ⟨g, hs⟩⟩⟩
  · unfold sentEntities
    rw [hrest ps htypes _ (.inl rfl), hrest ps htypes _ (.inr rfl)]
    rfl
  · obtain ⟨p, qs, rfl, hp, hqs⟩ := map_eq_cons_iff.mp htypes
    have hhdr := hl.headers e (by simp)
    have h1 := hrest qs hqs .reqHdr (.inl rfl)
    have h2 := hrest qs hqs .resHdr (.inr rfl)
    unfold sentEntities
    have hcase : e.type = .reqHdr ∨ e.type = .resHdr := by simpa [Entity.isHdr] using hhdr
    rcases hcase with ht | ht
    · rw [getHeaders_cons_of_eq (hp.trans ht), getHeaders_cons_of_ne (by rw [hp, ht]; decide), h2]
      simp
    · rw [getHeaders_cons_of_eq (hp.trans ht), getHeaders_cons_of_ne (by rw [hp, ht]; decide), h1]
      rfl
  · obtain ⟨he, hf, hlines⟩ := ho
    obtain ⟨p, rs, rfl, hp, hrs⟩ := map_eq_cons_iff.mp htypes
    obtain ⟨q, qs, rfl, hq, hqs⟩ := map_eq_cons_iff.mp hrs
    have hbuf := (hpacked 0 p (by omega) rfl e (by rw [hl.split]; rfl) (hl.headers e (by simp))).2
    unfold sentEntities
    rw [getHeaders_cons_of_eq (hp.trans he), getHeaders_cons_of_ne (by rw [hp, he]; decide),
      getHeaders_cons_of_eq (hq.trans hf)]
    simp only [hbuf, if_neg hlines]
    rfl
  · exact ho.elim

theorem RequestOrder.of_match (hm : OffsetsMatch (packEntities (placeEntities es))
      (sentEntities (packEntities (placeEntities es))))
    (hl : Layout es (es.take (sentEntities (packEntities (placeEntities es))).length)
      (es.drop (sentEntities (packEntities (placeEntities es))).length)) :
    RequestOrder (es.take (sentEntities (packEntities (placeEntities es))).length) := by
  have hshort : ∀ {l : List Entity}, l.length ≤ 1 → RequestOrder l := by
    intro l hlen
    match l, hlen with
    | [], _ | [_], _ => trivial
  by_cases hone : (es.take (sentEntities (packEntities (placeEntities es))).length).length ≤ 1
  · exact hshort hone
  -- two blocks are sent: the request headers, which are not empty, and the response headers
  have hsent : ∃ i h j h', getHeadersFromEntities (packEntities (placeEntities es)) .reqHdr
        = some (i, h) ∧ h.buf ≠ [] ∧
      getHeadersFromEntities (packEntities (placeEntities es)) .resHdr = some (j, h') ∧
      sentEntities (packEntities (placeEntities es)) = [i, j] := by
    have hlen : 2 ≤ (sentEntities (packEntities (placeEntities es))).length := by
      rw [length_take] at hone
      omega
    unfold sentEntities at hlen ⊢
    cases hreq : getHeadersFromEntities (packEntities (placeEntities es)) .reqHdr with
    | none =>
      rw [hreq] at hlen
      cases hres : getHeadersFromEntities (packEntities (placeEntities es)) .resHdr <;>
        simp [hres] at hlen
    | some p =>
      rw [hreq] at hlen
      dsimp only at hlen
      by_cases hb : p.2.buf = []
      · rw [if_pos hb] at hlen
        simp at hlen
      · cases hres : getHeadersFromEntities (packEntities (placeEntities es)) .resHdr with
        | none => simp [hres] at hlen
        | some q => exact ⟨p.1, p.2, q.1, q.2, rfl, hb, rfl, by simp [hb]⟩
  obtain ⟨i, h, j, h', hreq, hb, hres, hs⟩ := hsent
  rw [hs] at hm hl hone ⊢
  obtain ⟨e, f, rest, rfl⟩ : ∃ e f rest, es = e :: f :: rest := by
    match es, hone with
    | e :: f :: rest, _ => exact ⟨e, f, rest, rfl⟩
    | [_], hone | [], hone => simp at hone
  have hhdr0 := hl.headers e (by simp)
  have hhdr1 := hl.headers f (by simp)
  obtain ⟨p, hp⟩ : ∃ p, (packEntities (placeEntities (e :: f :: rest)))[0]? = some p := ⟨_, rfl⟩
  obtain ⟨q, hq⟩ : ∃ q, (packEntities (placeEntities (e :: f :: rest)))[1]? = some q := ⟨_, rfl⟩
  obtain ⟨hpt, hpb⟩ := packedEntity_headers (show 0 < 3 by omega) rfl hp hhdr0
  obtain ⟨hqt, -⟩ := packedEntity_headers (show 1 < 3 by omega) rfl hq hhdr1
  obtain rfl : i = 0 := by
    have := (hm.header 0 p (by omega) hp (by unfold Entity.isHdr at *; rw [hpt]; exact hhdr0)).1
    simpa using this
  obtain rfl : j = 1 := by
    have := (hm.header 1 q (by omega) hq (by unfold Entity.isHdr at *; rw [hqt]; exact hhdr1)).1
    simpa using this
  obtain ⟨p', hp', htype, rfl⟩ := getHeaders_spec hreq
  obtain ⟨q', hq', htype', -⟩ := getHeaders_spec hres
  obtain rfl := Option.some.inj (hp.symm.trans hp')
  obtain rfl := Option.some.inj (hq.symm.trans hq')
  exact ⟨hpt.symm.trans htype, hqt.symm.trans htype', fun hcon => hb (hpb.mpr hcon)⟩

/-- A request is sent as its head announces it exactly when the header lists come first, the
request headers before the response headers, and no empty list is before another. -/
theorem requestEncapsulated_iff (hopt : ∀ e ∈ c.req.entities, e.type ≠ .optBody) :
    RequestEncapsulated c ↔ ((previewHead c.req).packed = false ∧ (previewHead c.req).Room 1) ∧
      ∃ hs bs, Layout c.req.entities hs bs ∧ RequestOrder hs := by
  have hann := announces_iff (previewHead c.req) hopt
  have hblocks : (previewHead c.req).packed = false ∧ (previewHead c.req).Room 1 →
      requestBlocks 6 { c with status := .writeNothing } =
        some (sentEntities (requestPack c.req).entities) := by
    rintro ⟨hp, hroom⟩
    refine requestBlocks_eq ?_
    obtain ⟨size, hadd⟩ := @Headers.add_of_room (previewHead c.req)
      (encapsulatedLine (placeEntities c.req.entities)) hp hroom
    rw [ne_eq, Headers.buf_eq_nil_iff]
    show ¬ ((previewHead c.req).add (encapsulatedLine (placeEntities c.req.entities))).pack.lines = []
    rw [Headers.pack_lines, hadd]
    simp
  constructor
  · rintro ⟨hhead, n, sent, hn, hmatch⟩
    obtain ⟨hroom, hlen, hfits⟩ := hann.mp hhead
    obtain rfl := requestBlocks_unique hn (hblocks hroom)
    have hl := hmatch.layout hlen hfits
    exact ⟨hroom, _, _, hl, .of_match hmatch hl⟩
  · rintro ⟨hroom, hs, bs, hl, ho⟩
    refine ⟨hann.mpr ⟨hroom, hl.short, hl.fits⟩, 6, _, hblocks hroom, ?_⟩
    show OffsetsMatch (packEntities (placeEntities c.req.entities))
      (sentEntities (packEntities (placeEntities c.req.entities)))
    rw [sentEntities_layout hl ho]
    exact hl.offsetsMatch

/-- **Offsets in the Encapsulated header.** For every request object, whatever its entities and
their header lists, the offsets that the pack functions write are the places of the blocks that
are then sent, and `process_encapsulated` reads the same entries back, exactly when: the head
takes the line, there are at most three entities and the offsets fit an `int`, and the header
lists stand before the other entities in the order in which they are sent. The server sends at
most two header blocks before it stops moving on. The client sends the request headers before
the response headers and ends at a header list without lines. -/
theorem encapsulated_offsets_iff (cfg : Config σ) (req : Req σ) (c : Client)
    (hreq : ∀ e ∈ req.entities, e.type ≠ .optBody) (hc : ∀ e ∈ c.req.entities, e.type ≠ .optBody) :
    (ResponseEncapsulated cfg req ↔
      (req.responseHeader.packed = false ∧ req.responseHeader.Room 1) ∧
      ∃ hs bs, Layout req.entities hs bs ∧ hs.length ≤ 2) ∧
    (RequestEncapsulated c ↔
      ((previewHead c.req).packed = false ∧ (previewHead c.req).Room 1) ∧
      ∃ hs bs, Layout c.req.entities hs bs ∧ RequestOrder hs) :=
  ⟨responseEncapsulated_iff cfg hreq, requestEncapsulated_iff hc⟩

def oneHeader (line : List UInt8) : Headers := { lines := [⟨line, true⟩] }

/-- A response with a header list and a body, and a request with two header lists. -/
theorem encapsulated_offsets_sample :
    ResponseEncapsulated (σ := Unit) { findService := fun _ => none }
      { entities := [{ type := .resHdr, headers := oneHeader (bytes "HTTP/1.1 200 OK") },
        { type := .resBody }] } ∧
    RequestEncapsulated { req := { entities :=
      [{ type := .reqHdr, headers := oneHeader (bytes "GET / HTTP/1.1") },
        { type := .resHdr, headers := oneHeader (bytes "HTTP/1.1 200 OK") },
        { type := .nullBody }] } } := by
  have hiff := encapsulated_offsets_iff (σ := Unit) { findService := fun _ => none }
    { entities := [{ type := .resHdr, headers := oneHeader (bytes "HTTP/1.1 200 OK") },
      { type := .resBody }] }
    { req := { entities := [{ type := .reqHdr, headers := oneHeader (bytes "GET / HTTP/1.1") },
        { type := .resHdr, headers := oneHeader (bytes "HTTP/1.1 200 OK") },
        { type := .nullBody }] } } (by decide) (by decide)
  refine ⟨hiff.1.mpr ⟨⟨rfl, rfl⟩, [_], [_], ⟨rfl, ?_, ?_, ?_, ?_⟩, ?_⟩,
    hiff.2.mpr ⟨⟨rfl, rfl⟩, [_, _], [_], ⟨rfl, ?_, ?_, ?_, ?_⟩, ⟨rfl, rfl, ?_⟩⟩⟩ <;> decide

/-- The client is called with an empty list of request headers: the response headers are
announced at offset 0, but what starts there is the body, since the client stops at the empty
block. -/
theorem response_headers_not_sent : ∃ c,
    prepareHeaders { reqHeaders := some [], respHeaders := some [bytes "HTTP/1.1 200 OK"] }
      { req := { type := some .respmod, reqServer := bytes "h", service := bytes "echo" }
        source := some [.data (bytes "hi")] } = some c ∧
    bytes "Encapsulated: req-hdr=0, res-hdr=0, res-body=19" ∈
      (requestPack c.req).requestHeader.texts ∧
    requestBlocks 6 c = some [0] ∧ ¬ RequestEncapsulated c := by
  refine ⟨_, rfl, by decide, by decide +kernel, ?_⟩
  rintro ⟨-, n, sent, hsent, hmatch⟩
  obtain rfl := requestBlocks_unique (t := [0]) (n := 6) hsent (by decide +kernel)
  have h := (hmatch.header 1 _ (by omega) rfl (by decide)).1
  cases h

end CIcap
