import CIcap.Chunk.Decode
import CIcap.Client.Frame
import CIcap.Request.Blocks

/-! # The prepared request

What `prepare_headers` of the client library makes of a new request object: the header lists
are those of the caller, and the preview is the front of the data source. The latter holds when
the source gives the preview in one piece; the loop of `prepare_headers` reads every piece to the
beginning of the preview buffer.
-/

namespace CIcap

open CText Chunked List

/-! ## The source -/

theorem Source.stream_cons (item : SourceItem) (src : Source) :
    Source.stream (item :: src) = item.bytes ++ Source.stream src := rfl

theorem Source.read_data (bs : List UInt8) (src : Source) (len : Nat) :
    Source.read (.data bs :: src) len =
      if len < bs.length then (.data (bs.take len), .data (bs.drop len) :: src)
      else (.data bs, src) := rfl

/-- A read takes its data off the front of the stream, and the end comes behind all data. -/
theorem Source.read_spec (src : Source) (len : Nat) :
    match src.read len with
    | (.data bs, src') => bs ++ src'.stream = src.stream ∧ bs.length ≤ len
    | (.eof, src') => src.stream = [] ∧ src'.stream = []
    | (.error, _) => True := by
  match src with
  | [] => exact ⟨rfl, rfl⟩
  | .error :: src => trivial
  | .data bs :: src =>
    rw [read_data]
    by_cases hlt : len < bs.length
    · rw [if_pos hlt]
      refine ⟨?_, by simp⟩
      rw [stream_cons, ← append_assoc]
      exact congrArg (· ++ stream src) (take_append_drop len bs)
    · rw [if_neg hlt]
      exact ⟨rfl, by omega⟩

/-- The first item of the source is the whole preview of `n` bytes, or all the source has. -/
def PreviewInOne (n : Nat) : Source → Prop
  | .data bs :: src => n ≤ bs.length ∨ Source.stream src = []
  | _ => True

theorem previewLoop_zero (fuel : Nat) (src : Source) (mem : List UInt8) :
    previewLoop fuel src mem 0 = (src, some (mem, 0, false)) := by
  cases fuel <;> rfl

variable {mem mem' : List UInt8}

/-- A source without data ends the preview at the next read. -/
theorem previewLoop_dry {fuel : Nat} {src src' : Source} {n n' : Nat}
    {eof : Bool} (hfuel : 0 < fuel) (hn : 0 < n) (hdry : src.stream = [])
    (h : previewLoop fuel src mem n = (src', some (mem', n', eof))) :
    mem' = mem ∧ n' = n ∧ src'.stream = [] := by
  obtain ⟨fuel, rfl⟩ : ∃ k, fuel = k + 1 := ⟨fuel - 1, by omega⟩
  rw [previewLoop, if_neg (by omega)] at h
  match src, hdry with
  | [], _ =>
    obtain ⟨rfl, rfl, rfl, -⟩ := h
    exact ⟨rfl, rfl, rfl⟩
  | .error :: src, _ => simp [Source.read] at h
  | .data bs :: src, hdry =>
    obtain ⟨hbs, hrest⟩ := append_eq_nil_iff.mp (Source.stream_cons _ src ▸ hdry)
    obtain rfl : bs = [] := hbs
    obtain ⟨rfl, rfl, rfl, -⟩ := h
    exact ⟨rfl, rfl, hrest⟩

/-- The preview buffer holds the front of the stream when the preview comes in one piece. -/
theorem previewLoop_spec {n : Nat} {src src' : Source} {remains : Nat}
    {eof : Bool} (hn : 0 < n) (hone : PreviewInOne n src)
    (h : previewLoop n src mem n = (src', some (mem', remains, eof))) :
    (mem'.take (n - remains)).length = n - remains ∧
      mem'.take (n - remains) ++ src'.stream = src.stream ∧ (eof = true → src'.stream = []) := by
  obtain ⟨fuel, rfl⟩ : ∃ k, n = k + 1 := ⟨n - 1, by omega⟩
  rw [previewLoop, if_neg (by omega)] at h
  match src, hone with
  | [], _ =>
    obtain ⟨rfl, rfl, rfl, -⟩ := h
    simp [Source.stream]
  | .error :: src, _ => simp [Source.read] at h
  | .data bs :: src, hone =>
    have hread := Source.read_spec (.data bs :: src) (fuel + 1)
    rw [Source.read_data] at h hread
    by_cases hlt : fuel + 1 < bs.length
    · -- the piece is longer than the preview
      rw [if_pos hlt] at h hread
      dsimp only at h hread
      have hlen : (bs.take (fuel + 1)).length = fuel + 1 := by simp; omega
      have hne : bs.take (fuel + 1) ≠ [] := by intro hcon; rw [hcon] at hlen; simp at hlen
      rw [if_neg hne, hlen, Nat.sub_self, previewLoop_zero] at h
      obtain ⟨rfl, rfl, rfl, rfl⟩ := h
      have htake : (bs.take (fuel + 1) ++ mem.drop (fuel + 1)).take (fuel + 1 - 0) =
          bs.take (fuel + 1) := by
        rw [take_append_of_le_length (by omega), take_of_length_le (by omega)]
      rw [htake]
      exact ⟨by omega, hread.1, by simp⟩
    · rw [if_neg hlt] at h hread
      dsimp only at h hread
      by_cases hbs : bs = []
      · -- nothing was read, which is taken for the end
        subst hbs
        rw [if_pos rfl] at h
        simp only [Prod.mk.injEq] at h
        obtain ⟨rfl, rfl, rfl, rfl⟩ := h
        have hdry : Source.stream src = [] := hone.resolve_left (by simp)
        simp [Source.stream_cons, SourceItem.bytes, hdry]
      rw [if_neg hbs] at h
      have hpos : 0 < bs.length := length_pos_iff.mpr hbs
      have htake : (bs ++ mem.drop bs.length).take bs.length = bs := by
        rw [take_append_of_le_length le_rfl, take_length]
      rcases Nat.lt_or_ge bs.length (fuel + 1) with hshort | hfull
      · -- the rest of the preview is asked for, and the source has no more
        have hdry : Source.stream src = [] := hone.resolve_left (by omega)
        obtain ⟨rfl, rfl, hend⟩ := previewLoop_dry (by omega) (by omega) hdry h
        have hused : fuel + 1 - (fuel + 1 - bs.length) = bs.length := by omega
        rw [hused, htake, hend, Source.stream_cons, hdry]
        exact ⟨rfl, rfl, fun _ => rfl⟩
      · obtain hall : bs.length = fuel + 1 := by omega
        rw [hall, Nat.sub_self, previewLoop_zero] at h
        obtain ⟨rfl, rfl, rfl, rfl⟩ := h
        rw [Nat.sub_zero, ← hall, htake]
        exact ⟨rfl, hread.1, by simp⟩

/-! ## The header lists -/

/-- A header list to which nothing has been added. -/
def Headers.Fresh (h : Headers) : Prop := h.lines = [] ∧ h.packed = false

theorem Headers.Fresh.room {h : Headers} (hf : h.Fresh) : h.Room 1 := by
  have hr := h.room_reset
  rw [Headers.room_iff] at hr ⊢
  rw [hf.1]
  exact hr

/-- Lines that are added to a fresh list leave it empty only when there are none. -/
theorem Headers.Fresh.addAll {h : Headers} (hf : h.Fresh) (lines : List (List UInt8)) :
    (h.addAll lines).lines = [] ↔ lines = [] := by
  cases lines with
  | nil => simp [Headers.addAll, hf.1]
  | cons line lines =>
    obtain ⟨size, hadd⟩ := @Headers.add_of_room h line hf.2 hf.room
    have hpre := Headers.lines_addAll (h.add line) lines
    constructor
    · intro hnil
      rw [Headers.addAll, foldl_cons, ← Headers.addAll] at hnil
      rw [hnil, hadd] at hpre
      simp at hpre
    · simp

def Entity.Fresh (e : Entity) : Prop := e.headers.Fresh ∧ e.start = 0

variable (req : Req Unit)

/-- The entities that are created are fresh and have the given types. -/
theorem createEntities_fresh (types : List EntityType) :
    (req.createEntities types).entities.map Entity.type = types ∧
      ∀ e ∈ (req.createEntities types).entities, e.Fresh := by
  refine ⟨(Req.createEntities_spec req types).2.1, ?_⟩
  have hfold : ∀ (types : List EntityType) (r : Req Unit), (∀ e ∈ r.entities, e.Fresh) →
      ∀ e ∈ (types.foldl (fun req type =>
        let (e, req) := req.allocEntity type 0
        { req with entities := req.entities ++ [e] }) r).entities, e.Fresh := by
    intro types
    induction types with
    | nil => intro r hr; exact hr
    | cons type types ih =>
      intro r hr
      refine ih _ fun e he => ?_
      have hkeep := (allocEntity_entry r type 0).2
      rcases mem_append.mp he with h | h
      · exact hr e (hkeep ▸ h)
      · rw [mem_singleton.mp h]
        unfold Req.allocEntity
        split <;> exact ⟨⟨rfl, rfl⟩, rfl⟩
  exact hfold types _ (by simp [Req.releaseEntities])

theorem putToTrash_entitiesOnly (es : List Entity) (req : Req Unit) :
    req.EntitiesOnly (es.foldl Req.putToTrash req) := by
  induction es generalizing req with
  | nil => rfl
  | cons e es ih =>
    have h : req.EntitiesOnly (req.putToTrash e) := rfl
    exact h.trans (ih _)

theorem createEntities_entitiesOnly (types : List EntityType) :
    req.EntitiesOnly (req.createEntities types) := by
  have hrel : req.EntitiesOnly req.releaseEntities :=
    (putToTrash_entitiesOnly req.entities req).trans rfl
  have hfold : ∀ (types : List EntityType) (r : Req Unit),
      r.EntitiesOnly (types.foldl (fun req type =>
        let (e, req) := req.allocEntity type 0
        { req with entities := req.entities ++ [e] }) r) := by
    intro types
    induction types with
    | nil => intro r; rfl
    | cons type types ih =>
      intro r
      have halloc : r.EntitiesOnly (r.allocEntity type 0).2 := by
        unfold Req.allocEntity
        split <;> rfl
      refine (halloc.trans ?_).trans (ih _)
      rfl
  exact hrel.trans (hfold types _)

/-- The header list of the caller as an entity. -/
def callerEntity (type : EntityType) (h : Headers) (lines : Option (List (List UInt8))) :
    List Entity :=
  (lines.map fun lines => (⟨type, 0, h.addAll lines⟩ : Entity)).toList

/-- The lines of a header list of the caller go to the entity that was created for them. -/
theorem addHeaders {add : Req Unit → List UInt8 → Req Unit} {pre : List Entity} {t : EntityType}
    (hadd : ∀ (req : Req Unit) line h es, req.packed = false →
      req.entities = pre ++ ⟨t, 0, h⟩ :: es →
      add req line = { req with entities := pre ++ ⟨t, 0, h.add line⟩ :: es })
    (l : Option (List (List UInt8))) {r : Req Unit} {es : List Entity} {ts : List EntityType}
    (hp : r.packed = false) (hes : r.entities = pre ++ es)
    (hmap : es.map Entity.type = (l.map fun _ => t).toList ++ ts) (hfresh : ∀ e ∈ es, e.Fresh) :
    ∃ h es', h.Fresh ∧ es'.map Entity.type = ts ∧ (∀ e ∈ es', e.Fresh) ∧
      (l.getD []).foldl add r = { r with entities := pre ++ (callerEntity t h l ++ es') } := by
  cases l with
  | none =>
    refine ⟨{}, es, ⟨rfl, rfl⟩, hmap, hfresh, ?_⟩
    show r = { r with entities := pre ++ es }
    rw [← hes]
  | some lines =>
    obtain ⟨⟨t', s, h⟩, es, rfl, ht, hrest⟩ := map_eq_cons_iff.mp hmap
    obtain rfl : t' = t := ht
    obtain ⟨⟨hf, rfl⟩, hf'⟩ := forall_mem_cons.mp hfresh
    refine ⟨h, es, hf, hrest, hf', ?_⟩
    show lines.foldl add r = { r with entities := pre ++ ⟨t', 0, h.addAll lines⟩ :: es }
    clear hf hfresh hmap
    induction lines generalizing r h with
    | nil =>
      show r = _
      rw [Headers.addAll, foldl_nil, ← hes]
    | cons line lines ih =>
      rw [foldl_cons, hadd r line h es hp hes,
        @ih { r with entities := pre ++ ⟨t', 0, h.add line⟩ :: es } hp (h.add line) rfl]
      rfl

theorem requestAddHeader_eq (line : List UInt8) (h : Headers) (es : List Entity)
    (hp : req.packed = false) (hes : req.entities = [] ++ ⟨.reqHdr, 0, h⟩ :: es) :
    req.httpRequestAddHeader line =
      { req with entities := [] ++ ⟨.reqHdr, 0, h.add line⟩ :: es } := by
  unfold Req.httpRequestAddHeader
  rw [hp, hes]
  rfl

theorem responseAddHeader_eq (l : Option (List (List UInt8))) (h₁ : Headers) (req : Req Unit)
    (line : List UInt8) (h : Headers) (es : List Entity) (hp : req.packed = false)
    (hes : req.entities = callerEntity .reqHdr h₁ l ++ ⟨.resHdr, 0, h⟩ :: es) :
    req.httpResponseAddHeader line =
      { req with entities := callerEntity .reqHdr h₁ l ++ ⟨.resHdr, 0, h.add line⟩ :: es } := by
  have hlist : Req.addToEntity .resHdr line (req.entities.take 3) ++ req.entities.drop 3 =
      callerEntity .reqHdr h₁ l ++ ⟨.resHdr, 0, h.add line⟩ :: es := by
    rw [hes]
    cases l with
    | none => exact congrArg (_ :: ·) (take_append_drop 2 es)
    | some lines => exact congrArg (_ :: _ :: ·) (take_append_drop 1 es)
  unfold Req.httpResponseAddHeader
  rw [if_neg (by simp [hp])]
  dsimp only
  rw [hlist]

/-- The entities of the request, with the header lists of the caller. -/
theorem callerEntities (args : FilterArgs) (req : Req Unit) (hp : req.packed = false)
    (hasBody : Bool) :
    ∃ (h₁ h₂ : Headers) (b : Entity), h₁.Fresh ∧ h₂.Fresh ∧ b.isHdr = false ∧
      req.EntitiesOnly ((args.respHeaders.getD []).foldl Req.httpResponseAddHeader
        ((args.reqHeaders.getD []).foldl Req.httpRequestAddHeader
          (clientBuildHeaders req args.reqHeaders.isSome args.respHeaders.isSome hasBody))) ∧
      ((args.respHeaders.getD []).foldl Req.httpResponseAddHeader
        ((args.reqHeaders.getD []).foldl Req.httpRequestAddHeader
          (clientBuildHeaders req args.reqHeaders.isSome args.respHeaders.isSome hasBody))).entities =
        callerEntity .reqHdr h₁ args.reqHeaders ++ callerEntity .resHdr h₂ args.respHeaders ++ [b] := by
  set types : List EntityType := (if args.reqHeaders.isSome then [.reqHdr] else []) ++
      (if args.respHeaders.isSome then [.resHdr] else []) ++
      [if hasBody then (if req.type = some .respmod then .resBody else .reqBody) else .nullBody]
    with htypes
  have hbuild : clientBuildHeaders req args.reqHeaders.isSome args.respHeaders.isSome hasBody =
      req.createEntities types := rfl
  have honly := createEntities_entitiesOnly req types
  obtain ⟨hmap, hfresh⟩ := createEntities_fresh req types
  rw [hbuild]
  generalize req.createEntities types = r at honly hmap hfresh ⊢
  have hpr : r.packed = false := by rw [honly]; exact hp
  have hopt : ∀ (l : Option (List (List UInt8))) (t : EntityType),
      (if l.isSome then [t] else []) = (l.map fun _ => t).toList := by
    intro l t
    cases l <;> rfl
  rw [htypes, hopt, hopt, append_assoc] at hmap
  obtain ⟨h₁, es, hf₁, hmap, hfresh, hreq⟩ :=
    addHeaders requestAddHeader_eq args.reqHeaders hpr rfl hmap hfresh
  rw [nil_append] at hreq
  obtain ⟨h₂, es', hf₂, hmap, -, hres⟩ := addHeaders (responseAddHeader_eq args.reqHeaders h₁)
    args.respHeaders (r := { r with entities := callerEntity .reqHdr h₁ args.reqHeaders ++ es })
    hpr rfl hmap hfresh
  -- behind the header lists there is the body
  obtain ⟨b, rest, rfl, hb, hnil⟩ := map_eq_cons_iff.mp hmap
  obtain rfl := map_eq_nil_iff.mp hnil
  rw [hreq, hres]
  refine ⟨h₁, h₂, b, hf₁, hf₂, ?_, honly.trans rfl, (append_assoc _ _ _).symm⟩
  unfold Entity.isHdr
  rw [hb]
  split_ifs <;> rfl

/-! ## The header blocks -/

def headerBlock (es : List Entity) (type : EntityType) : List UInt8 :=
  ((getHeadersFromEntities es type).map fun p => p.2.buf).getD []

def headerBlocks (es : List Entity) : List UInt8 :=
  (es.filter Entity.isHdr).flatMap fun e => e.headers.buf

/-- The header lists of the caller in the packed request. -/
theorem callerEntities_packed (l₁ l₂ : Option (List (List UInt8))) (h₁ h₂ : Headers) {b : Entity}
    (hb : b.isHdr = false) (es : List Entity) (hes : es = packEntities (placeEntities
      (callerEntity .reqHdr h₁ l₁ ++ callerEntity .resHdr h₂ l₂ ++ [b]))) :
    (getHeadersFromEntities es .reqHdr).map Prod.snd = l₁.map (fun l => (h₁.addAll l).pack) ∧
    (getHeadersFromEntities es .resHdr).map Prod.snd = l₂.map (fun l => (h₂.addAll l).pack) ∧
    headerBlocks es = headerBlock es .reqHdr ++ headerBlock es .resHdr := by
  -- the packed entities differ from those of the caller in their offsets only
  obtain ⟨s₁, s₂, b', hb', hlist⟩ : ∃ (s₁ s₂ : Int) (b' : Entity), b'.isHdr = false ∧ es =
      (l₁.map fun l => (⟨.reqHdr, s₁, (h₁.addAll l).pack⟩ : Entity)).toList ++
        (l₂.map fun l => (⟨.resHdr, s₂, (h₂.addAll l).pack⟩ : Entity)).toList ++ [b'] := by
    have hlast : ∀ n : Int, ({ b with start := n } : Entity).packed.isHdr = false := fun n =>
      (Entity.packed_isHdr _).trans hb
    rw [hes]
    cases l₁ with
    | none => cases l₂ <;> exact ⟨0, 0, _, hlast _, rfl⟩
    | some l =>
      cases l₂ <;>
        exact ⟨0, (0 + sizeofencaps ⟨.reqHdr, 0, h₁.addAll l⟩ : Nat), _, hlast _, rfl⟩
  have hnone : ∀ t, t = .reqHdr ∨ t = .resHdr → getHeadersFromEntities [b'] t = none := by
    intro t ht
    rw [getHeaders_eq_none_iff]
    intro e he hcon
    rw [← mem_singleton.mp he] at hb'
    rcases ht with rfl | rfl <;> simp [Entity.isHdr, hcon] at hb'
  have hq := hnone .reqHdr (.inl rfl)
  have hs := hnone .resHdr (.inr rfl)
  have hreq : ∀ (n : Int) (h : Headers), (⟨.reqHdr, n, h⟩ : Entity).isHdr = true := fun _ _ => rfl
  have hres : ∀ (n : Int) (h : Headers), (⟨.resHdr, n, h⟩ : Entity).isHdr = true := fun _ _ => rfl
  rw [hlist]
  unfold headerBlocks headerBlock
  cases l₁ <;> cases l₂ <;>
    simp [getHeaders_cons_of_eq, getHeaders_cons_of_ne, hq, hs, hb', hreq, hres]

/-! ## The request -/

/-- A request object as `ci_client_request` and `ci_client_request_reuse` leave it. -/
structure Client.Ready (c : Client) : Prop where
  status : c.status = .init
  eofSent : c.eofSent = false
  continued : c.continued = false
  wire : c.wire = []
  packed : c.req.packed = false
  head : c.req.requestHeader.Fresh
  previewData : c.req.previewData.data = []
  ret : c.ret = .wants false false false false

def Client.NoPreview (c : Client) : Prop := c.source = none ∨ c.req.preview < 0

/-- An empty header list is not followed by anything that is sent with the headers. -/
def FilterArgs.ListsSent (args : FilterArgs) (c : Client) : Prop :=
  (args.reqHeaders = some [] → args.respHeaders.getD [] = [] ∧ c.NoPreview) ∧
  (args.respHeaders = some [] → c.NoPreview)

def Client.previewBytes (p : Client) : List UInt8 :=
  if p.req.preview < 0 then []
  else (if p.req.previewData.data = [] then [] else chunkBytes p.req.previewData.data) ++
    Client.previewEnd p.eofSent

/-- The head and the header blocks as they are sent. -/
def Client.headerBytes (p : Client) : List UInt8 :=
  (requestPack p.req).requestHeader.buf ++ headerBlocks (requestPack p.req).entities

/-- What `prepare_headers` makes of a request object. -/
structure Prepared (c₀ p : Client) : Prop where
  status : p.status = .writeNothing
  wire : p.wire = []
  continued : p.continued = false
  head : (requestPack p.req).requestHeader.buf ≠ []
  blocks : headerBlocks (requestPack p.req).entities =
    headerBlock (requestPack p.req).entities .reqHdr ++
      headerBlock (requestPack p.req).entities .resHdr
  reqEmpty : ∀ i h, getHeadersFromEntities (requestPack p.req).entities .reqHdr = some (i, h) →
    h.buf = [] → headerBlock (requestPack p.req).entities .resHdr = [] ∧ p.previewBytes = []
  resEmpty : ∀ i h, getHeadersFromEntities (requestPack p.req).entities .resHdr = some (i, h) →
    h.buf = [] → p.previewBytes = []
  noSource : c₀.source = none → p.source = none ∧ p.req.preview < 0
  source : ∀ src, c₀.source = some src → ∃ src', p.source = some src' ∧
    p.req.previewData.data ++ src'.stream = src.stream ∧ (p.eofSent = true → src'.stream = [])
  preview : (c₀.NoPreview ∧ p.req.preview < 0 ∧ p.eofSent = false ∧ p.req.previewData.data = []) ∨
    (¬ c₀.NoPreview ∧ p.req.preview = p.req.previewData.data.length)

/-- The preview that has been read. -/
structure PreviewRead (c c' : Client) (src : Source) : Prop where
  frame : ∃ src' eof preview data, c' = { c with
    source := some src', eofSent := eof
    req := { c.req with preview := preview, previewData := data } }
  source : ∃ src', c'.source = some src' ∧ c'.req.previewData.data ++ src'.stream = src.stream ∧
    (c'.eofSent = true → src'.stream = [])
  preview : (c.req.preview < 0 ∧ c'.req.preview < 0 ∧ c'.eofSent = false ∧
      c'.req.previewData.data = []) ∨
    (0 ≤ c.req.preview ∧ c'.req.preview = c'.req.previewData.data.length)

variable {args : FilterArgs}

theorem readPreview_spec {c c' : Client} {src : Source}
    (hsrc : c.source = some src) (heof : c.eofSent = false) (hdata : c.req.previewData.data = [])
    (hone : PreviewInOne c.req.preview.toNat src) (h : readPreview args c src = some c') :
    PreviewRead c c' src := by
  unfold readPreview at h
  by_cases hpos : 0 < c.req.preview
  · rw [if_pos hpos] at h
    dsimp only at h
    split at h
    · cases h
    · rename_i src' mem remains preEof hloop
      obtain ⟨hlen, hstream, hend⟩ := previewLoop_spec (by omega) hone hloop
      obtain rfl := Option.some.inj h
      refine ⟨⟨_, _, _, _, rfl⟩, ⟨src', rfl, hstream, ?_⟩, .inr ⟨by omega, ?_⟩⟩
      · simpa [heof] using hend
      · rw [hlen]
  · rw [if_neg hpos] at h
    obtain rfl := Option.some.inj h
    refine ⟨⟨src, c.eofSent, c.req.preview, c.req.previewData, ?_⟩, ⟨src, hsrc, ?_, ?_⟩, ?_⟩
    · rw [← hsrc]
    · rw [hdata]
      rfl
    · simp [heof]
    · rcases lt_or_ge c.req.preview 0 with hneg | hnn
      · exact .inl ⟨hneg, hneg, heof, hdata⟩
      · refine .inr ⟨hnn, ?_⟩
        rw [hdata]
        exact_mod_cast le_antisymm (not_lt.mp hpos) hnn

theorem clientCreateRequest_spec {agent : Option (List UInt8)} {req req' : Req Unit}
    (hf : req.requestHeader.Fresh) (h : clientCreateRequest agent req = some req') :
    req' = { req with requestHeader := req'.requestHeader } ∧ req'.requestHeader.lines ≠ [] := by
  obtain ⟨type, -, rfl⟩ := Option.map_eq_some_iff.mp h
  refine ⟨rfl, ?_⟩
  have hne := fun lines (hl : lines ≠ []) => (not_congr (hf.addAll lines)).mpr hl
  split_ifs
  · exact hne _ (by simp)
  · intro hcon
    have hpre := Headers.lines_addHeaders (req.requestHeader.addAll
      ([requestLine type req.reqServer req.service,
          snprintf 256 (bytes "Host: " ++ req.reqServer)] ++
        userAgentLine agent ++ allowLine req.allow204 req.allow206 req.allowTrailers)) req.xheaders
    rw [hcon, prefix_nil] at hpre
    exact hne _ (by simp) hpre

/-- A request with a head has one when it is packed. -/
theorem requestPack_head {req : Req Unit} (h : req.requestHeader.lines ≠ []) :
    (requestPack req).requestHeader.buf ≠ [] := by
  have hpre : req.requestHeader.lines <+: (requestPack req).requestHeader.lines := by
    show _ <+: ((previewHead req).add _).pack.lines
    rw [Headers.pack_lines]
    refine List.IsPrefix.trans ?_ (Headers.lines_add _ _)
    unfold previewHead
    split_ifs
    · exact Headers.lines_add _ _
    · exact prefix_rfl
  rw [ne_eq, Headers.buf_eq_nil_iff]
  intro hcon
  rw [hcon, prefix_nil] at hpre
  exact h hpre

theorem preparePreview_spec {c c' : Client} (heof : c.eofSent = false)
    (hdata : c.req.previewData.data = [])
    (hone : ∀ src, c.source = some src → PreviewInOne c.req.preview.toNat src)
    (h : preparePreview args c = some c') :
    (∃ src' eof preview data, c' = { c with
      source := src', eofSent := eof
      req := { c.req with preview := preview, previewData := data } }) ∧
    (c.source = none → c'.source = none ∧ c'.req.preview < 0) ∧
    (∀ src, c.source = some src → ∃ src', c'.source = some src' ∧
      c'.req.previewData.data ++ src'.stream = src.stream ∧ (c'.eofSent = true → src'.stream = [])) ∧
    ((c.NoPreview ∧ c'.req.preview < 0 ∧ c'.eofSent = false ∧ c'.req.previewData.data = []) ∨
      (¬ c.NoPreview ∧ c'.req.preview = c'.req.previewData.data.length)) := by
  unfold preparePreview at h
  split at h
  · rename_i hsrc
    obtain rfl := Option.some.inj h
    have hneg : (-1 : Int) < 0 := by omega
    exact ⟨⟨_, _, _, _, rfl⟩, fun _ => ⟨hsrc, hneg⟩, by simp [hsrc],
      .inl ⟨.inl hsrc, hneg, heof, hdata⟩⟩
  rename_i src hsrc
  have hspec := readPreview_spec hsrc heof hdata (hone src hsrc) h
  obtain ⟨src', eof, preview, data, hframe⟩ := hspec.frame
  refine ⟨⟨_, _, _, _, hframe⟩, by simp [hsrc], fun src₁ h₁ => ?_, ?_⟩
  · obtain rfl := Option.some.inj (hsrc.symm.trans h₁)
    exact hspec.source
  · have hno : c.NoPreview ↔ c.req.preview < 0 := by simp [Client.NoPreview, hsrc]
    rw [hno]
    rcases hspec.preview with ⟨h1, h2⟩ | ⟨h1, h2⟩
    · exact .inl ⟨h1, h2⟩
    · exact .inr ⟨not_lt.mpr h1, h2⟩

/-- **The prepared request.** The header lists are those of the caller and the preview is the
front of the stream. -/
theorem prepareHeaders_spec {c₀ p : Client} (hr : c₀.Ready) (hl : args.ListsSent c₀)
    (hone : ∀ src, c₀.source = some src → PreviewInOne c₀.req.preview.toNat src)
    (h : prepareHeaders args c₀ = some p) : Prepared c₀ p := by
  unfold prepareHeaders at h
  cases hcreate : clientCreateRequest args.userAgent c₀.req with
  | none => rw [hcreate] at h; cases h
  | some req =>
    rw [hcreate] at h
    obtain ⟨hreq, hlines⟩ := clientCreateRequest_spec hr.head hcreate
    obtain ⟨c₁, hstage, hp⟩ := Option.map_eq_some_iff.mp h
    -- the preview stage sees the source and the preview of the request object
    have hpv : req.preview = c₀.req.preview := by rw [hreq]
    have hno : ({ c₀ with req := req } : Client).NoPreview ↔ c₀.NoPreview := by
      simp [Client.NoPreview, hpv]
    obtain ⟨⟨src', eof, preview, data, hframe⟩, hnone, hsource, hpreview⟩ :=
      preparePreview_spec (c := { c₀ with req := req }) hr.eofSent
        (by dsimp only; rw [hreq]; exact hr.previewData)
        (by dsimp only; rw [hpv]; exact hone) hstage
    rw [hno] at hpreview
    have hpk : c₁.req.packed = false := by
      rw [hframe]
      rw [hreq]
      exact hr.packed
    obtain ⟨h₁, h₂, b, hf₁, hf₂, hb, honly, hes⟩ := callerEntities args c₁.req hpk c₁.source.isSome
    have hpes : (requestPack p.req).entities = packEntities (placeEntities
        (callerEntity .reqHdr h₁ args.reqHeaders ++ callerEntity .resHdr h₂ args.respHeaders ++
          [b])) := by
      rw [← hes, ← hp]
      rfl
    obtain ⟨hget₁, hget₂, hblocks⟩ :=
      callerEntities_packed args.reqHeaders args.respHeaders h₁ h₂ hb _ hpes
    have hpreq : p.req.preview = c₁.req.preview ∧ p.req.previewData = c₁.req.previewData ∧
        p.req.requestHeader = c₁.req.requestHeader := by
      rw [← hp]
      dsimp only
      rw [honly]
      exact ⟨rfl, rfl, rfl⟩
    have hpc : p.source = c₁.source ∧ p.eofSent = c₁.eofSent ∧ p.wire = c₁.wire ∧
        p.continued = c₁.continued ∧ p.status = .writeNothing := by
      rw [← hp]
      exact ⟨rfl, rfl, rfl, rfl, rfl⟩
    have hnopv : c₀.NoPreview → p.previewBytes = [] := by
      intro hn
      have hneg : p.req.preview < 0 := by
        rcases hpreview with h | h
        · rw [hpreq.1]; exact h.2.1
        · exact absurd hn h.1
      unfold Client.previewBytes
      rw [if_pos hneg]
    -- an empty block is an empty list of the caller
    have hempty : ∀ {t : EntityType} {l : Option (List (List UInt8))} {h₀ : Headers}
        {i : Nat} {h : Headers}, h₀.Fresh →
        (getHeadersFromEntities (requestPack p.req).entities t).map Prod.snd =
          l.map (fun l => (h₀.addAll l).pack) →
        getHeadersFromEntities (requestPack p.req).entities t = some (i, h) → h.buf = [] →
        l = some [] := by
      intro t l h₀ i h hf hmap hget hbuf
      rw [hget] at hmap
      obtain ⟨l', rfl, hl'⟩ := Option.map_eq_some_iff.mp hmap.symm
      rw [Headers.buf_eq_nil_iff, ← show (h₀.addAll l').pack = h from hl', Headers.pack_lines,
        hf.addAll] at hbuf
      rw [hbuf]
    refine
      { status := hpc.2.2.2.2
        wire := by rw [hpc.2.2.1, hframe]; exact hr.wire
        continued := by rw [hpc.2.2.2.1, hframe]; exact hr.continued
        head := requestPack_head (by rw [hpreq.2.2, hframe]; exact hlines)
        blocks := hblocks
        reqEmpty := fun i h hget hbuf => ?_
        resEmpty := fun i h hget hbuf => hnopv (hl.2 (hempty hf₂ hget₂ hget hbuf))
        noSource := fun hs => by rw [hpc.1, hpreq.1]; exact hnone hs
        source := fun src hs => by rw [hpc.1, hpc.2.1, hpreq.2.1]; exact hsource src hs
        preview := by rw [hpreq.1, hpreq.2.1, hpc.2.1]; exact hpreview }
    obtain ⟨hresp, hno'⟩ := hl.1 (hempty hf₁ hget₁ hget hbuf)
    refine ⟨?_, hnopv hno'⟩
    unfold headerBlock
    cases hget' : getHeadersFromEntities (requestPack p.req).entities .resHdr with
    | none => rfl
    | some q =>
      rw [hget'] at hget₂
      obtain ⟨l', hl', hq⟩ := Option.map_eq_some_iff.mp hget₂.symm
      rw [hl'] at hresp
      obtain rfl : l' = [] := hresp
      show q.2.buf = []
      rw [Headers.buf_eq_nil_iff, ← hq, Headers.pack_lines, hf₂.addAll]

end CIcap
