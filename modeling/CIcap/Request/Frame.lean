import CIcap.Request.Step

/-! # What the parts of the server leave alone

The head parser writes the fields of the request that describe it (`HeadFields`), a call of the
service API a few fields of the response. Each part of the server has one lemma that says what
it can change; everything else is the same by definition.
-/

namespace CIcap

open CText List

variable {σ : Type} (cfg : Config σ)

/-! ## The head parser -/

/-- The fields `parse_header` writes. -/
structure HeadFields (σ : Type) where
  requestHeader : Headers
  type : Option ReqType
  reqServer : List UInt8
  service : List UInt8
  args : List UInt8
  mod : Option (Service σ)
  preview : Int
  previewData : Buf
  hasbody : Bool
  entities : List Entity
  trash : List Entity
  keepalive : Bool
  allow204 : Bool
  allow206 : Bool
  allowTrailers : Bool

namespace Req

def withHead (req : Req σ) (x : HeadFields σ) : Req σ :=
  { req with
    requestHeader := x.requestHeader, type := x.type, reqServer := x.reqServer
    service := x.service, args := x.args
    mod := x.mod, preview := x.preview, previewData := x.previewData, hasbody := x.hasbody
    entities := x.entities, trash := x.trash, keepalive := x.keepalive, allow204 := x.allow204
    allow206 := x.allow206, allowTrailers := x.allowTrailers }

def head (req : Req σ) : HeadFields σ :=
  { requestHeader := req.requestHeader, type := req.type, reqServer := req.reqServer
    service := req.service
    args := req.args, mod := req.mod, preview := req.preview, previewData := req.previewData
    hasbody := req.hasbody, entities := req.entities, trash := req.trash
    keepalive := req.keepalive, allow204 := req.allow204, allow206 := req.allow206
    allowTrailers := req.allowTrailers }

def HeadOnly (r r' : Req σ) : Prop := r' = r.withHead r'.head

variable {r s u : Req σ}

theorem HeadOnly.trans (h : HeadOnly r s) (h' : HeadOnly s u) : HeadOnly r u := by
  rw [h'] at *
  rw [h]
  rfl

/-- Only fields that the header lines behind the request line set differ. -/
def LineOnly (r r' : Req σ) : Prop :=
  r' = { r with
    preview := r'.preview, previewData := r'.previewData, hasbody := r'.hasbody
    entities := r'.entities, trash := r'.trash, keepalive := r'.keepalive
    allow204 := r'.allow204, allow206 := r'.allow206, allowTrailers := r'.allowTrailers }

theorem LineOnly.trans (h : LineOnly r s) (h' : LineOnly s u) : LineOnly r u := by
  unfold LineOnly at *
  rw [h'] at *
  rw [h]

theorem LineOnly.headOnly {r r' : Req σ} (h : LineOnly r r') : HeadOnly r r' := by
  rw [h]
  rfl

/-- Only the service and its arguments differ. -/
def NameOnly (r r' : Req σ) : Prop :=
  r' = { r with service := r'.service, args := r'.args, mod := r'.mod }

theorem NameOnly.trans (h : NameOnly r s) (h' : NameOnly s u) : NameOnly r u := by
  unfold NameOnly at *
  rw [h'] at *
  rw [h]

theorem NameOnly.headOnly {r r' : Req σ} {type : Option ReqType} {server : List UInt8}
    (h : NameOnly { r with type := type, reqServer := server } r') : HeadOnly r r' := by
  rw [h]
  rfl

theorem NameOnly.reqServer_eq {r r' : Req σ} (h : NameOnly r r') : r'.reqServer = r.reqServer := by
  rw [h]

/-- Only the entities and what hangs on them differ. -/
def EntitiesOnly (r r' : Req σ) : Prop :=
  r' = { r with entities := r'.entities, trash := r'.trash, hasbody := r'.hasbody }

theorem EntitiesOnly.trans (h : EntitiesOnly r s) (h' : EntitiesOnly s u) : EntitiesOnly r u := by
  unfold EntitiesOnly at *
  rw [h'] at *
  rw [h]

theorem EntitiesOnly.lineOnly {r r' : Req σ} (h : EntitiesOnly r r') : LineOnly r r' := by
  rw [h]
  rfl

theorem allocEntity_entitiesOnly (req : Req σ) (type : EntityType) (start : Int) :
    EntitiesOnly req (req.allocEntity type start).2 := by
  unfold allocEntity
  split <;> rfl

end Req

open Req

theorem takeArgs_nameOnly {req req' : Req σ} {s s' : List UInt8}
    (h : takeArgs req s = some (req', s')) : NameOnly req req' := by
  unfold takeArgs at h
  split at h
  · cases h; rfl
  · cases h

variable (req : Req σ)

theorem takeService_nameOnly (s : List UInt8) : NameOnly req (takeService req s).1 := by
  unfold takeService
  split
  · rename_i s
    have hname : NameOnly req
        (if (s.takeWhile (fun b => b ≠ 32 && b ≠ 63)).take maxServiceName ≠ [] then
          { req with service := (s.takeWhile (fun b => b ≠ 32 && b ≠ 63)).take maxServiceName }
        else req) := by
      split <;> rfl
    dsimp only
    split
    · split
      · rename_i hargs
        exact hname.trans (takeArgs_nameOnly hargs)
      · exact hname
    · exact hname
  · rfl

theorem findModule_nameOnly : NameOnly req (findModule cfg req) := by
  unfold findModule
  dsimp only
  split_ifs <;> (try split) <;> (try split) <;> rfl

theorem parseRequest_nameOnly (buf : List UInt8) :
    ∃ type server, NameOnly { req with type := type, reqServer := server }
      (parseRequest cfg req buf).2 := by
  unfold parseRequest
  split
  · exact ⟨none, req.reqServer, rfl⟩
  rename_i type s _
  dsimp only
  split
  · exact ⟨some type, req.reqServer, rfl⟩
  rename_i s' _
  refine ⟨some type, (s'.takeWhile (fun b => b ≠ 47 && b ≠ 32)).take maxHostnameLen, ?_⟩
  have hs := takeService_nameOnly { req with
    type := some type
    reqServer := (s'.takeWhile (fun b => b ≠ 47 && b ≠ 32)).take maxHostnameLen }
    (s'.dropWhile (fun b => b ≠ 47 && b ≠ 32))
  split
  · rename_i heq
    rw [heq] at hs
    exact hs
  rename_i req' s'' heq
  rw [heq] at hs
  have hm := hs.trans (findModule_nameOnly cfg req')
  split
  · exact hs
  · split
    · exact hm
    · split <;> exact hm

theorem encapsLoop_entitiesOnly (fuel : Nat) (req : Req σ) (num : Nat) (hasbody : Bool)
    (s : List UInt8) : EntitiesOnly req (encapsLoop fuel req num hasbody s).2 := by
  induction fuel generalizing req num hasbody s with
  | zero => rfl
  | succ fuel ih =>
    unfold encapsLoop
    split
    · rfl
    · split
      · rfl
      · rename_i type val stop _
        split
        · rfl
        · refine ((allocEntity_entitiesOnly req type val).trans ?_).trans (ih _ _ _ _)
          rfl

theorem parseHeaderLine_lineOnly (line : List UInt8) :
    LineOnly req (parseHeaderLine req line).2 := by
  unfold parseHeaderLine
  split
  · split
    · rfl
    · split <;> rfl
  · split
    · exact (encapsLoop_entitiesOnly _ _ _ _ _).lineOnly
    · split
      all_goals split <;> rfl

theorem parseHeaderLines_lineOnly (lines : List (List UInt8)) :
    LineOnly req (parseHeaderLines req lines).2 := by
  induction lines generalizing req with
  | nil => rfl
  | cons line lines ih =>
    have h := parseHeaderLine_lineOnly req line
    unfold parseHeaderLines
    split
    · rename_i req' heq
      rw [heq] at h
      exact h.trans (ih req')
    · exact h

/-- The head parser writes only the fields of the head. -/
theorem parseHead_headOnly (head : List UInt8) : HeadOnly req (parseHead cfg req head).2 := by
  unfold parseHead
  split
  · rfl
  rename_i h _
  dsimp only
  have h0 : HeadOnly req { req with requestHeader := h } := rfl
  split
  · exact h0
  rename_i first lines _
  obtain ⟨_, _, hname⟩ := parseRequest_nameOnly cfg { req with requestHeader := h } first
  have h1 := hname.headOnly
  split
  · rename_i req' heq
    rw [heq] at h1
    have h2 := (parseHeaderLines_lineOnly req' lines).headOnly
    split
    · rename_i req'' heq'
      rw [heq'] at h2
      exact (h0.trans h1).trans h2
    · exact (h0.trans h1).trans h2
  · exact h0.trans h1

/-! ## What a head that is accepted says -/

/-- The service is one of the tables of the server. -/
def Config.Offers (m : Service σ) : Prop :=
  (∃ name, cfg.findService name = some m) ∨
    ∃ name args, cfg.findServiceAlias name = some (m, args)

theorem findModule_offers {req : Req σ} {m : Service σ} (h : (findModule cfg req).mod = some m) :
    cfg.Offers m := by
  unfold findModule at h
  dsimp only at h
  generalize (if req.service = [] then
    { req with service := (cfg.defaultService.getD []).take maxServiceName } else req) = r at h
  split at h
  · cases h
  split at h
  · rename_i hm
    cases h
    exact .inl ⟨_, hm⟩
  · split at h
    · cases h
    · rename_i hm
      cases h
      exact .inr ⟨_, _, hm⟩

theorem parseRequest_offers {req req' : Req σ} {buf : List UInt8}
    (h : parseRequest cfg req buf = (.ec100, req')) : ∃ m, req'.mod = some m ∧ cfg.Offers m := by
  unfold parseRequest at h
  split at h
  · cases h
  dsimp only at h
  split at h
  · cases h
  split at h
  · cases h
  split at h
  · cases h
  · split at h
    · cases h
    · rename_i m hm
      split at h
      · cases h
      · cases h
        exact ⟨m, hm, findModule_offers cfg hm⟩

/-- From the third entity on there is no header block. -/
def NoThirdHeader (es : List Entity) : Prop := ∀ e ∈ es.drop 2, e.isHdr = false

theorem NoThirdHeader.of_types {es : List Entity}
    (h : ∀ t ∈ (es.map Entity.type).drop 2, t ≠ .reqHdr ∧ t ≠ .resHdr) : NoThirdHeader es := by
  intro e he
  have ht := h e.type (by rw [← map_drop]; exact mem_map_of_mem he)
  simp [Entity.isHdr, ht]

theorem checkRequest_noThirdHeader {req : Req σ} (h : checkRequest req = .ec100)
    (htype : req.type = some .reqmod ∨ req.type = some .respmod) : NoThirdHeader req.entities := by
  apply NoThirdHeader.of_types
  unfold checkRequest at h
  rcases htype with ht | ht
  · simp only [ht] at h
    split at h
    all_goals first
      | (rename_i heq; rw [show req.entities.map Entity.type = _ from heq]; decide)
      | cases h
  · simp only [ht] at h
    split at h
    all_goals first
      | (rename_i heq; rw [show req.entities.map Entity.type = _ from heq]; decide)
      | cases h

/-- What `parse_header` has checked when it succeeds. -/
theorem parseHead_accepts {req : Req σ} {head : List UInt8}
    (h : (parseHead cfg req head).1 = .ec100) :
    (∃ m, (parseHead cfg req head).2.mod = some m ∧ cfg.Offers m) ∧
      checkRequest (parseHead cfg req head).2 = .ec100 := by
  unfold parseHead at h ⊢
  split at h
  · cases h
  dsimp only at h ⊢
  split at h
  · cases h
  rename_i first lines _
  split at h
  · rename_i req' heq
    split at h
    · rename_i req'' heq'
      have hmod : (parseHeaderLines req' lines).2.mod = req'.mod := by
        rw [parseHeaderLines_lineOnly req' lines]
      rw [heq'] at hmod
      obtain ⟨m, hm, ho⟩ := parseRequest_offers cfg heq
      exact ⟨⟨m, hmod.trans hm, ho⟩, h⟩
    · rename_i hne
      exact (hne _ (Prod.ext h rfl)).elim
  · rename_i hne
    exact (hne _ (Prod.ext h rfl)).elim

/-! ## The service API -/

/-- The fields the calls of the API write. -/
structure ApiFields where
  dataLocked : Bool
  xheaders : Headers
  trailerNames : Option (List UInt8)
  xtrailers : Option Headers
  i206UseOriginalBody : Int
  entities : List Entity
  trash : List Entity
  wild : Bool

namespace Req

def withApi (req : Req σ) (x : ApiFields) : Req σ :=
  { req with
    dataLocked := x.dataLocked, xheaders := x.xheaders, trailerNames := x.trailerNames
    xtrailers := x.xtrailers, entities := x.entities, trash := x.trash, wild := x.wild
    rd := { req.rd with i206UseOriginalBody := x.i206UseOriginalBody } }

def apiFields (req : Req σ) : ApiFields :=
  { dataLocked := req.dataLocked, xheaders := req.xheaders, trailerNames := req.trailerNames
    xtrailers := req.xtrailers, i206UseOriginalBody := req.rd.i206UseOriginalBody
    entities := req.entities, trash := req.trash, wild := req.wild }

def ApiOnly (r r' : Req σ) : Prop := r' = r.withApi r'.apiFields

theorem ApiOnly.refl (r : Req σ) : ApiOnly r r := rfl

theorem ApiOnly.trans {r s u : Req σ} (h : ApiOnly r s) (h' : ApiOnly s u) : ApiOnly r u := by
  rw [h'] at *
  rw [h]
  rfl

theorem foldl_putToTrash_apiOnly (es : List Entity) (req : Req σ) :
    ApiOnly req (es.foldl putToTrash req) ∧ (es.foldl putToTrash req).entities = req.entities ∧
      (es.foldl putToTrash req).xheaders = req.xheaders ∧
      (es.foldl putToTrash req).trailerNames = req.trailerNames := by
  induction es generalizing req with
  | nil => exact ⟨rfl, rfl, rfl, rfl⟩
  | cons e es ih =>
    obtain ⟨h1, h2, h3, h4⟩ := ih (req.putToTrash e)
    have h0 : ApiOnly req (req.putToTrash e) := rfl
    exact ⟨h0.trans h1, h2, h3, h4⟩

variable (req : Req σ)

/-- The creation of entities changes nothing but the entities, which have the given types. -/
theorem createEntities_spec (types : List EntityType) :
    ApiOnly req (req.createEntities types) ∧
      (req.createEntities types).entities.map Entity.type = types ∧
      (req.createEntities types).xheaders = req.xheaders ∧
      (req.createEntities types).trailerNames = req.trailerNames := by
  have step : ∀ (types : List EntityType) (r : Req σ),
      let r' := types.foldl (fun req type => { (req.allocEntity type 0).2 with
        entities := (req.allocEntity type 0).2.entities ++ [(req.allocEntity type 0).1] }) r
      ApiOnly r r' ∧ r'.entities.map Entity.type = r.entities.map Entity.type ++ types ∧
        r'.xheaders = r.xheaders ∧ r'.trailerNames = r.trailerNames := by
    intro types
    induction types with
    | nil => intro r; simp [ApiOnly.refl]
    | cons type types ih =>
      intro r
      have h1 : ApiOnly r { (r.allocEntity type 0).2 with
              entities := (r.allocEntity type 0).2.entities ++ [(r.allocEntity type 0).1] } ∧
          (r.allocEntity type 0).2.entities = r.entities ∧
          (r.allocEntity type 0).1.type = type ∧
          (r.allocEntity type 0).2.xheaders = r.xheaders ∧
          (r.allocEntity type 0).2.trailerNames = r.trailerNames := by
        unfold allocEntity
        split <;> exact ⟨rfl, rfl, rfl, rfl, rfl⟩
      obtain ⟨ha, hes, hty, hx, hn⟩ := h1
      obtain ⟨ia, ies, ix, inn⟩ := ih { (r.allocEntity type 0).2 with
        entities := (r.allocEntity type 0).2.entities ++ [(r.allocEntity type 0).1] }
      refine ⟨ha.trans ia, ?_, ix.trans hx, inn.trans hn⟩
      simp only [foldl_cons]
      rw [ies]
      simp [hes, hty]
  obtain ⟨h1, h2, h3, h4⟩ := foldl_putToTrash_apiOnly req.entities req
  have hrel : ApiOnly req req.releaseEntities := by
    refine h1.trans ?_
    rfl
  obtain ⟨s1, s2, s3, s4⟩ := step types req.releaseEntities
  exact ⟨hrel.trans s1, s2, s3.trans h3, s4.trans h4⟩

theorem addToEntity_types (type : EntityType) (header : List UInt8) (es : List Entity) :
    (addToEntity type header es).map Entity.type = es.map Entity.type := by
  induction es with
  | nil => rfl
  | cons e es ih =>
    unfold addToEntity
    split_ifs
    · rfl
    · simp [ih]

theorem httpResponseAddHeader_types (header : List UInt8) :
    (req.httpResponseAddHeader header).entities.map Entity.type = req.entities.map Entity.type := by
  unfold httpResponseAddHeader
  split_ifs
  · rfl
  · simp only [map_append, addToEntity_types]
    rw [← map_append, take_append_drop]

theorem httpRequestAddHeader_types (header : List UInt8) :
    (req.httpRequestAddHeader header).entities.map Entity.type = req.entities.map Entity.type := by
  unfold httpRequestAddHeader
  split
  · rfl
  · split
    · rename_i heq
      simp [heq]
    · split <;> rfl

end Req

theorem NoThirdHeader.congr {es es' : List Entity}
    (h : es'.map Entity.type = es.map Entity.type) (hes : NoThirdHeader es) : NoThirdHeader es' := by
  have hhdr : ∀ l : List Entity, l.map Entity.isHdr =
      (l.map Entity.type).map (fun t => decide (t = .reqHdr) || decide (t = .resHdr)) := by
    simp [Entity.isHdr]
  intro e he
  have hm : e.isHdr ∈ (es'.map Entity.isHdr).drop 2 := by
    rw [← map_drop]
    exact mem_map_of_mem he
  rw [hhdr, h, ← hhdr, ← map_drop] at hm
  obtain ⟨e', he', heq⟩ := mem_map.mp hm
  rw [← heq]
  exact hes e' he'

def trailerName : List UInt8 := bytes "Trailer"

/-- The list has a `Trailer` header. -/
def Headers.announces (h : Headers) : Bool := h.texts.any (Headers.named trailerName)

namespace ApiCall

/-- The call replaces the entities. -/
def creates : ApiCall → Bool
  | httpResponseCreate _ _ => true
  | httpRequestCreate _ => true
  | _ => false

/-- The call adds no `Trailer` header of its own. -/
def plain : ApiCall → Bool
  | addXheader header => !Headers.named trailerName header
  | _ => true

end ApiCall

theorem Headers.announces_add {h : Headers} {line : List UInt8} (hh : h.announces = false)
    (hl : Headers.named trailerName line = false) : (h.add line).announces = false := by
  unfold Headers.announces at *
  rcases h.texts_add line with heq | heq
  · rw [heq, hh]
  · rw [heq, any_append, hh]
    simp [hl]

/-- What calls of the API do to the response. -/
structure ApiEffect (calls : List ApiCall) (r r' : Req σ) : Prop where
  only : ApiOnly r r'
  names : r.packed = true → r'.trailerNames = r.trailerNames
  allowed : r'.trailerNames.isSome → r.trailerNames.isSome ∨ r.allowTrailers = true
  named : (∀ n ∈ r.trailerNames, Headers.named trailerName n = true) →
    ∀ n ∈ r'.trailerNames, Headers.named trailerName n = true
  noThird : NoThirdHeader r.entities → NoThirdHeader r'.entities
  kept : r.packed = true → (∀ a ∈ calls, a.creates = false) → r'.entities = r.entities
  plain : (∀ a ∈ calls, a.plain = true) → r.xheaders.announces = false →
    r'.xheaders.announces = false

theorem named_append {name text : List UInt8} (h : Headers.named name text = true)
    (more : List UInt8) : Headers.named name (text ++ more) = true := by
  unfold Headers.named at *
  simp only [Bool.and_eq_true, decide_eq_true_eq] at *
  have hlen : name.length < text.length := by
    by_contra hge
    rw [drop_eq_nil_of_le (by omega)] at h
    simp at h
  rw [drop_append_of_le_length (by omega), take_append_of_le_length (by omega)]
  refine ⟨?_, h.2⟩
  simp [h.1]

theorem ApiEffect.refl (r : Req σ) : ApiEffect [] r r where
  only := .refl r
  names _ := rfl
  allowed h := .inl h
  named h := h
  noThird h := h
  kept _ _ := rfl
  plain _ h := h

variable {a : ApiCall}

theorem ApiEffect.cons {calls : List ApiCall} {r s u : Req σ}
    (h : ApiEffect [a] r s) (h' : ApiEffect calls s u) : ApiEffect (a :: calls) r u where
  only := h.only.trans h'.only
  names hp := (h'.names (by rw [h.only]; exact hp)).trans (h.names hp)
  allowed hu := by
    rcases h'.allowed hu with hs | hs
    · exact h.allowed hs
    · rw [h.only] at hs
      exact .inr hs
  named hn := h'.named (h.named hn)
  noThird hn := h'.noThird (h.noThird hn)
  kept hp hc := by
    rw [h'.kept (by rw [h.only]; exact hp) (fun b hb => hc b (mem_cons_of_mem a hb))]
    exact h.kept hp (by simpa using hc a)
  plain hc hx := h'.plain (fun b hb => hc b (mem_cons_of_mem a hb))
    (h.plain (by simpa using hc a) hx)

/-- A call that only touches the entities keeps their types, and leaves them alone once the
response is packed. -/
theorem ApiEffect.of_entities {r r' : Req σ} (only : ApiOnly r r')
    (hx : r'.xheaders = r.xheaders) (hn : r'.trailerNames = r.trailerNames)
    (hthird : NoThirdHeader r.entities → NoThirdHeader r'.entities)
    (hkept : r.packed = true → a.creates = false → r'.entities = r.entities) :
    ApiEffect [a] r r' where
  only := only
  names _ := hn
  allowed h := .inl (by rwa [hn] at h)
  named h := by rwa [hn]
  noThird := hthird
  kept hp hc := hkept hp (hc a (mem_singleton_self a))
  plain _ h := by rwa [hx]

theorem createEntities_effect (ha : a.creates = true) (req : Req σ)
    {types : List EntityType} (htypes : ∀ t ∈ types.drop 2, t ≠ .reqHdr ∧ t ≠ .resHdr) :
    ApiEffect [a] req (req.createEntities types) := by
  obtain ⟨h1, h2, h3, h4⟩ := createEntities_spec req types
  refine .of_entities h1 h3 h4 (fun _ => .of_types ?_) (fun _ h => ?_)
  · rw [h2]
    exact htypes
  · rw [ha] at h
    cases h

theorem promiseTrailers_effect (names : List UInt8) :
    ApiEffect [.promiseTrailers names] req (req.promiseTrailers names) := by
  unfold promiseTrailers
  split
  · exact .of_entities (.refl req) rfl rfl id (fun _ _ => rfl)
  rename_i hp
  simp only [Bool.or_eq_true, Bool.not_eq_eq_eq_not, Bool.not_true, not_or,
    Bool.not_eq_false] at hp
  split
  · rename_i old hold
    constructor
    · rfl
    · exact fun h => absurd h hp.1
    · exact fun _ => .inr hp.2
    · intro hn n hmem
      obtain rfl : old ++ bytes ", " ++ names = n := by simpa using hmem
      rw [append_assoc]
      exact named_append (hn old hold) _
    · exact id
    · exact fun _ _ => rfl
    · exact fun _ h => h
  · constructor
    · rfl
    · exact fun h => absurd h hp.1
    · exact fun _ => .inr hp.2
    · intro _ n hmem
      obtain rfl : bytes "Trailer: " ++ names = n := by simpa using hmem
      exact named_append (by decide) _
    · exact id
    · exact fun _ _ => rfl
    · exact fun _ h => h

theorem api_effect (a : ApiCall) : ApiEffect [a] req (req.api a) := by
  cases a with
  | lockData | unlockData => exact .of_entities rfl rfl rfl id (fun _ _ => rfl)
  | addXheader header =>
    refine ⟨rfl, fun _ => rfl, fun h => .inl h, id, id, fun _ _ => rfl, fun hc hx => ?_⟩
    have hl : Headers.named trailerName header = false := by
      simpa [ApiCall.plain] using hc _ (mem_singleton_self _)
    exact Headers.announces_add hx hl
  | promiseTrailers names => exact promiseTrailers_effect req names
  | addTrailer trailer => exact .of_entities rfl rfl rfl id (fun _ _ => rfl)
  | originBody offset =>
    simp only [api]
    split <;> exact .of_entities rfl rfl rfl id (fun _ _ => rfl)
  | httpResponseCreate hasReshdr hasBody =>
    refine createEntities_effect rfl req ?_
    cases hasReshdr <;> cases hasBody <;> simp
  | httpRequestCreate hasBody =>
    refine createEntities_effect rfl req ?_
    cases hasBody <;> simp
  | httpResponseAddHeader header =>
    have honly : ApiOnly req (req.httpResponseAddHeader header) ∧
        (req.httpResponseAddHeader header).xheaders = req.xheaders ∧
        (req.httpResponseAddHeader header).trailerNames = req.trailerNames := by
      unfold httpResponseAddHeader
      split <;> exact ⟨rfl, rfl, rfl⟩
    refine .of_entities honly.1 honly.2.1 honly.2.2 (.congr (httpResponseAddHeader_types _ _)) ?_
    intro hp _
    simp [api, httpResponseAddHeader, hp]
  | httpRequestAddHeader header =>
    have honly : ApiOnly req (req.httpRequestAddHeader header) ∧
        (req.httpRequestAddHeader header).xheaders = req.xheaders ∧
        (req.httpRequestAddHeader header).trailerNames = req.trailerNames := by
      unfold httpRequestAddHeader
      split
      · exact ⟨rfl, rfl, rfl⟩
      · split
        · exact ⟨rfl, rfl, rfl⟩
        · split <;> exact ⟨rfl, rfl, rfl⟩
    refine .of_entities honly.1 honly.2.1 honly.2.2 (.congr (httpRequestAddHeader_types _ _)) ?_
    intro hp _
    simp [api, httpRequestAddHeader, hp]

theorem apis_effect (calls : List ApiCall) : ApiEffect calls req (req.apis calls) := by
  induction calls generalizing req with
  | nil => exact .refl req
  | cons a calls ih => exact (api_effect req a).cons (ih (req.api a))

/-! ## Reading and the service -/

/-- `net_data_read` changes the reader and takes bytes from the connection. -/
theorem netDataRead_frame (c : Run σ) (t : Tick) : ∃ rd input, (c.netDataRead t).2 =
    { c with req := { c.req with rd := rd }, net := { c.net with input := input } } := by
  unfold Run.netDataRead
  split
  · exact ⟨c.req.rd, c.net.input, rfl⟩
  unfold Run.readNonblock
  cases t.read with
  | none => exact ⟨c.req.rd, c.net.input, rfl⟩
  | some k =>
    dsimp only [Option.map_some]
    split
    · exact ⟨c.req.rd, _, rfl⟩
    · exact ⟨_, _, rfl⟩

/-- What a call of `service_io` does: it calls the API, or works on the ring buffer. -/
structure IoEffect (calls : List ApiCall) (c c' : Run σ) : Prop where
  api : ApiEffect calls c.req { c'.req with echoBody := c.req.echoBody }
  net : c'.net = c.net
  hist : c'.hist = c.hist
  pc : c'.pc = c.pc
  echo : c'.req.echoBody.isSome = c.req.echoBody.isSome

theorem serviceIo_effect (c : Run σ) (parseOnly : Bool) (a : IoArgs) :
    ∃ calls, IoEffect calls c (c.serviceIo parseOnly a).2 ∧
      (calls = [] ∨ ∃ m io, c.req.mod = some m ∧ m.serviceIo = some io ∧
        calls = (io c.svc c.req.view a).2.2) := by
  unfold Run.serviceIo
  split
  · exact ⟨[], ⟨.refl c.req, rfl, rfl, rfl, rfl⟩, .inl rfl⟩
  split
  · rename_i ring hring
    refine ⟨[], ⟨?_, rfl, rfl, rfl, by simp [hring]⟩, .inl rfl⟩
    exact .refl c.req
  split
  · exact ⟨[], ⟨.refl c.req, rfl, rfl, rfl, rfl⟩, .inl rfl⟩
  rename_i io hio
  obtain ⟨m, hm, hio⟩ := Option.bind_eq_some_iff.mp hio
  have heff := apis_effect c.req (io c.svc c.req.view a).2.2
  have hecho : (c.req.apis (io c.svc c.req.view a).2.2).echoBody = c.req.echoBody := by
    rw [heff.only]
    rfl
  refine ⟨_, ⟨?_, rfl, rfl, rfl, congrArg Option.isSome hecho⟩, .inr ⟨m, io, hm, hio, rfl⟩⟩
  rw [← hecho]
  exact heff

/-- `service_io` keeps to the room and to what it was offered. -/
theorem serviceIo_bounds {c c' : Run σ} {parseOnly : Bool} {a : IoArgs} {read : IoRead}
    {took : Option Nat} (h : c.serviceIo parseOnly a = (.ok read took, c')) :
    read.bytes.length ≤ a.room ∧ ∀ n, took = some n → n ≤ (a.wdata.getD []).length := by
  unfold Run.serviceIo at h
  split at h
  · obtain ⟨⟨rfl, rfl⟩, -⟩ := h
    constructor
    · split <;> exact Nat.zero_le _
    · rintro n ⟨⟩
      exact Nat.le_refl _
  split at h
  · rename_i ring _
    unfold Run.modEchoIo at h
    dsimp only at h
    have hwrite : (Run.echoWrite ring a.wdata).2 ≤ (a.wdata.getD []).length := by
      cases a.wdata with
      | none => exact Nat.zero_le _
      | some data => exact RingBuf.writeLoop_le _ _ _
    split at h
    · obtain ⟨⟨rfl, rfl⟩, -⟩ := h
      constructor
      · split
        · exact Nat.zero_le _
        · exact RingBuf.readLoop_length_le _ _ _
      · rintro n ⟨⟩
        exact hwrite
    · obtain ⟨⟨rfl, rfl⟩, -⟩ := h
      refine ⟨Nat.zero_le _, ?_⟩
      rintro n ⟨⟩
      exact hwrite
  · split at h
    · cases h
    simp only [Prod.mk.injEq] at h
    obtain ⟨h, -⟩ := h
    have htook : ∀ took' : Option Nat, took'.map (min (a.wdata.getD []).length) = took →
        ∀ n, took = some n → n ≤ (a.wdata.getD []).length := by
      rintro took' rfl n hn
      obtain ⟨k, -, rfl⟩ := Option.map_eq_some_iff.mp hn
      exact Nat.min_le_left _ _
    unfold IoRes.clip at h
    split at h
    · simp only [IoRes.ok.injEq] at h
      obtain ⟨rfl, h⟩ := h
      refine ⟨?_, htook _ h⟩
      simp [IoRead.bytes]
    · rename_i r took' hne _
      simp only [IoRes.ok.injEq] at h
      obtain ⟨rfl, h⟩ := h
      refine ⟨?_, htook _ h⟩
      cases r with
      | data out => exact (hne _ rfl).elim
      | eof | bad => exact Nat.zero_le _
    · cases h

end CIcap
