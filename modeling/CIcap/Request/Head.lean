import CIcap.Request.Queue

/-! # The heads of responses

What `mk_responce_header`, `ec_responce` and `options_responce` leave in the request: which
fields they write, that a head has a status line, and when it announces trailers. The
announcement is the one line of a head that the promises of the service decide.
-/

namespace CIcap

open CText Pieces List
open Headers (named)

variable {σ : Type} (cfg : Config σ)

/-! ## Lines that are no announcement -/

/-- A line that is longer than its fixed beginning has the name of the beginning. -/
theorem named_trailer_append {start : List UInt8} (h : 7 < start.length) (rest : List UInt8) :
    named trailerName (start ++ rest) = named trailerName start := by
  have hlen : trailerName.length = 7 := by decide
  unfold named
  rw [hlen, drop_append_of_le_length (by omega), take_append_of_le_length (by omega)]
  cases hd : start.drop 7 with
  | nil =>
    have := drop_eq_nil_iff.mp hd
    omega
  | cons b l => simp

theorem named_trailer_cons {b : UInt8} (h : lower b ≠ 116) (rest : List UInt8) :
    named trailerName (b :: rest) = false := by
  have hname : trailerName.map lower = 116 :: (bytes "railer").map lower := by decide
  have hlen : trailerName.length = 6 + 1 := by decide
  unfold named
  rw [hname, hlen]
  simp [h]

/-- A line that is cut has the name of the line when enough is left. -/
theorem named_trailer_take {line : List UInt8} {n : Nat} (h : 7 < n) :
    named trailerName (line.take n) = named trailerName line := by
  rcases Nat.lt_or_ge 7 (line.take n).length with hl | hl
  · have := named_trailer_append hl (line.drop n)
    rwa [take_append_drop, eq_comm] at this
  · rw [length_take] at hl
    rw [take_of_length_le (by omega)]

namespace Headers

variable {h : Headers}

theorem announces_addAll {lines : List (List UInt8)} (hh : h.announces = false)
    (hl : ∀ l ∈ lines, named trailerName l = false) : (h.addAll lines).announces = false := by
  induction lines generalizing h with
  | nil => exact hh
  | cons line lines ih =>
    refine ih (announces_add hh (hl line mem_cons_self)) fun l hm => ?_
    exact hl l (mem_cons_of_mem line hm)

theorem announces_addHeaders {hs : Headers} (hh : h.announces = false)
    (hhs : hs.announces = false) : (h.addHeaders hs).announces = false := by
  unfold announces at *
  rcases h.texts_addHeaders hs with heq | heq
  · rw [heq, hh]
  · rw [heq, any_append, hh, hhs]
    rfl

theorem pack_texts (h : Headers) : h.pack.texts = h.texts := by
  unfold pack
  split_ifs <;> rfl

theorem pack_announces (h : Headers) : h.pack.announces = h.announces := by
  unfold announces
  rw [h.pack_texts]

theorem buf_ne_nil (hl : h.lines ≠ []) : h.buf ≠ [] := by
  unfold buf
  rw [if_neg hl]
  simp [crlf]

theorem pack_lines (h : Headers) : h.pack.lines = h.lines := by
  unfold pack
  split_ifs <;> rfl

end Headers

/-! ## The beginning of a head -/

theorem statusLine_silent (ec : Ec) : named trailerName ec.statusLine = false := by
  unfold Ec.statusLine
  rw [named_trailer_append (by decide)]
  decide

theorem istagLine_silent (m : Service σ) : named trailerName m.istagLine = false := by
  unfold Service.istagLine
  rw [append_assoc, named_trailer_append (by decide)]
  decide

/-- The lines every head begins with. -/
def firstLines (req : Req σ) (status : List UInt8) : List (List UInt8) :=
  [status, bytes "Server: C-ICAP/" ++ cfg.version, connectionLine req] ++
    (req.mod.map (fun m => [m.istagLine])).getD []

theorem firstLines_length (req : Req σ) (status : List UInt8) :
    (firstLines cfg req status).length ≤ 4 := by
  unfold firstLines
  cases req.mod <;> simp

theorem startHead_eq (req : Req σ) (status : List UInt8) :
    startHead cfg req status =
      if req.xheaders.isEmpty then req.responseHeader.reset.addAll (firstLines cfg req status)
      else (req.responseHeader.reset.addAll (firstLines cfg req status)).addHeaders req.xheaders :=
  rfl

theorem firstLines_silent (req : Req σ) {status : List UInt8}
    (hs : named trailerName status = false) :
    ∀ l ∈ firstLines cfg req status, named trailerName l = false := by
  have hserver : named trailerName (bytes "Server: C-ICAP/" ++ cfg.version) = false := by
    rw [named_trailer_append (by decide)]
    decide
  have hconn : named trailerName (connectionLine req) = false := by
    unfold connectionLine
    split_ifs <;> decide
  intro l hl
  rcases mem_append.mp hl with h | h
  · simp only [mem_cons, not_mem_nil, or_false] at h
    rcases h with rfl | rfl | rfl
    · exact hs
    · exact hserver
    · exact hconn
  · cases hm : req.mod with
    | none => simp [hm] at h
    | some m =>
      simp only [hm, Option.map_some, Option.getD_some, mem_singleton] at h
      rw [h]
      exact istagLine_silent m

variable {req : Req σ}

/-- A head announces nothing before the trailers are added to it. -/
theorem startHead_silent {status : List UInt8}
    (hs : named trailerName status = false) (hx : req.xheaders.announces = false) :
    (startHead cfg req status).announces = false := by
  have h0 : (req.responseHeader.reset.addAll (firstLines cfg req status)).announces = false :=
    Headers.announces_addAll rfl (firstLines_silent cfg req hs)
  rw [startHead_eq]
  split_ifs
  · exact h0
  · exact Headers.announces_addHeaders h0 hx

theorem startHead_packed (req : Req σ) (status : List UInt8) :
    (startHead cfg req status).packed = false := by
  rw [startHead_eq]
  split_ifs
  · rw [Headers.addAll_packed]
    rfl
  · rw [Headers.addHeaders_packed, Headers.addAll_packed]
    rfl

theorem startHead_lines (req : Req σ) (status : List UInt8) :
    (startHead cfg req status).lines ≠ [] := by
  obtain ⟨size, hadd⟩ : ∃ size, req.responseHeader.reset.add status = _ :=
    Headers.add_of_room rfl (Headers.room_reset _)
  have hfirst : (req.responseHeader.reset.add status).lines <+:
      (req.responseHeader.reset.addAll (firstLines cfg req status)).lines :=
    Headers.lines_addAll _ _
  have hpre : (req.responseHeader.reset.add status).lines <+: (startHead cfg req status).lines := by
    rw [startHead_eq]
    split_ifs
    · exact hfirst
    · exact hfirst.trans (Headers.lines_addHeaders _ _)
  intro h
  rw [h, hadd] at hpre
  simp at hpre

theorem startHead_room {n : Nat}
    (hr : req.responseHeader.reset.Room (req.xheaders.lines.length + n + 4)) (status : List UInt8) :
    (startHead cfg req status).Room n := by
  have h4 := firstLines_length cfg req status
  have h0 : (req.responseHeader.reset.addAll (firstLines cfg req status)).Room
      (req.xheaders.lines.length + n) := Headers.Room.addAll _ (hr.mono (by omega))
  rw [startHead_eq]
  split_ifs
  · exact h0.mono (by omega)
  · exact Headers.Room.addHeaders _ h0

/-! ## `mk_responce_header` -/

/-- Only the fields that `mk_responce_header` writes differ. -/
def Req.MkOnly (r r' : Req σ) : Prop :=
  r' = { r with
    responseHeader := r'.responseHeader, entities := r'.entities, trash := r'.trash
    responceHasbody := r'.responceHasbody, packed := r'.packed }

theorem Req.MkOnly.trans {r s u : Req σ} (h : r.MkOnly s) (h' : s.MkOnly u) : r.MkOnly u := by
  unfold Req.MkOnly at *
  rw [h'] at *
  rw [h]

theorem dropRequestHeader_only (req : Req σ) : req.MkOnly (dropRequestHeader req) := by
  unfold dropRequestHeader
  split
  · split <;> rfl
  · rfl

theorem addVia_only (req : Req σ) : req.MkOnly (addVia cfg req) := by
  unfold addVia
  split
  · unfold Req.httpResponseAddHeader
    split <;> rfl
  · unfold Req.httpRequestAddHeader
    split
    · rfl
    · split
      · rfl
      · split <;> rfl
  · rfl

theorem addVia_fields (req : Req σ) : (addVia cfg req).responseHeader = req.responseHeader ∧
      (addVia cfg req).responceHasbody = req.responceHasbody := by
  unfold addVia
  split
  · unfold Req.httpResponseAddHeader
    split <;> exact ⟨rfl, rfl⟩
  · unfold Req.httpRequestAddHeader
    split
    · exact ⟨rfl, rfl⟩
    · split
      · exact ⟨rfl, rfl⟩
      · split <;> exact ⟨rfl, rfl⟩
  · exact ⟨rfl, rfl⟩

theorem addVia_types (req : Req σ) :
    (addVia cfg req).entities.map Entity.type = req.entities.map Entity.type := by
  unfold addVia
  split
  · exact Req.httpResponseAddHeader_types _ _
  · exact Req.httpRequestAddHeader_types _ _
  · rfl

theorem setStarts_types (start : Nat) (es : List Entity) :
    (setStarts start es).map Entity.type = es.map Entity.type := by
  induction es generalizing start with
  | nil => rfl
  | cons e es ih => simp [setStarts, ih]

theorem placeEntities_types (es : List Entity) :
    (placeEntities es).map Entity.type = es.map Entity.type := by
  unfold placeEntities
  rw [map_append, setStarts_types, ← map_append, take_append_drop]

theorem responsePack_types (req : Req σ) :
    (responsePack req).entities.map Entity.type = req.entities.map Entity.type := by
  show (packEntities (placeEntities req.entities)).map Entity.type = _
  rw [← placeEntities_types req.entities]
  unfold packEntities
  rw [map_map]
  apply map_congr_left
  intro e _
  simp only [Function.comp_apply]
  split_ifs <;> rfl

/-- The request up to the announcement of trailers. -/
def mkStart (req : Req σ) : Req σ :=
  let req := { req with
    responseHeader := startHead cfg req (req.returnCode.getD .ec200).statusLine }
  let req := dropRequestHeader req
  { req with responceHasbody := respCheckBody req.entities }

/-- The head of `mk_responce_header` without the lines for trailers. -/
def mkStartHead (req : Req σ) : Headers := startHead cfg req (req.returnCode.getD .ec200).statusLine

theorem mkResponceHeader_eq (req : Req σ) :
    mkResponceHeader cfg req =
      responsePack (addVia cfg
        { mkStart cfg req with responseHeader := announceTrailers (mkStart cfg req) }) :=
  rfl

theorem mkStart_header (req : Req σ) : (mkStart cfg req).responseHeader = mkStartHead cfg req := by
  unfold mkStart dropRequestHeader
  dsimp only
  split
  · split <;> rfl
  · rfl

theorem mkStart_only (req : Req σ) : req.MkOnly (mkStart cfg req) := by
  have h0 : req.MkOnly { req with
      responseHeader := startHead cfg req (req.returnCode.getD .ec200).statusLine } := rfl
  refine (h0.trans (dropRequestHeader_only _)).trans ?_
  rfl

/-- What `mk_responce_header` writes. -/
theorem mkResponceHeader_only (req : Req σ) : req.MkOnly (mkResponceHeader cfg req) := by
  have h1 : (mkStart cfg req).MkOnly
      { mkStart cfg req with responseHeader := announceTrailers (mkStart cfg req) } := rfl
  refine ((mkStart_only cfg req).trans h1).trans ((addVia_only cfg _).trans ?_)
  rfl

theorem mkResponceHeader_hasbody (req : Req σ) :
    (mkResponceHeader cfg req).responceHasbody = (mkStart cfg req).responceHasbody :=
  (addVia_fields cfg _).2

theorem mkResponceHeader_header (req : Req σ) : ∃ line, (mkResponceHeader cfg req).responseHeader =
      ((announceTrailers (mkStart cfg req)).add line).pack ∧
    named trailerName line = false := by
  refine ⟨encapsulatedLine (placeEntities (addVia cfg
    { mkStart cfg req with responseHeader := announceTrailers (mkStart cfg req) }).entities), ?_, ?_⟩
  · rw [mkResponceHeader_eq]
    unfold responsePack
    rw [(addVia_fields cfg _).1]
  · unfold encapsulatedLine
    split
    · decide
    · rw [append_assoc, named_trailer_append (by decide)]
      decide

theorem announceTrailers_lines (req : Req σ) (hl : req.responseHeader.lines ≠ []) :
    (announceTrailers req).lines ≠ [] := by
  have hpre : req.responseHeader.lines <+: (announceTrailers req).lines := by
    unfold announceTrailers
    split
    · split
      · exact (Headers.lines_add _ _).trans (Headers.lines_add _ _)
      · exact prefix_rfl
    · exact prefix_rfl
  intro h
  rw [h] at hpre
  exact hl (prefix_nil.mp hpre)

theorem mkResponceHeader_built (req : Req σ) : Built (mkResponceHeader cfg req).side := by
  refine ⟨rfl, ?_⟩
  obtain ⟨line, heq, -⟩ := mkResponceHeader_header cfg req
  have hl : (mkStart cfg req).responseHeader.lines ≠ [] := by
    rw [mkStart_header]
    exact startHead_lines cfg _ _
  have hpre := Headers.lines_add (announceTrailers (mkStart cfg req)) line
  change (mkResponceHeader cfg req).responseHeader.lines ≠ []
  rw [heq, Headers.pack_lines]
  intro h
  rw [h] at hpre
  exact announceTrailers_lines _ hl (prefix_nil.mp hpre)

theorem mkResponceHeader_noThird (h : NoThirdHeader req.entities) :
    NoThirdHeader (mkResponceHeader cfg req).entities := by
  have hdrop : NoThirdHeader (mkStart cfg req).entities := by
    unfold mkStart dropRequestHeader
    dsimp only
    split
    · rename_i e es _ heq
      have heq' : req.entities = e :: es := heq
      split
      · intro e' he'
        apply h e'
        rw [heq']
        exact mem_of_mem_drop (show e' ∈ (es.drop 1).drop 1 by rwa [drop_drop])
      · exact h
    · exact h
  rw [mkResponceHeader_eq]
  refine NoThirdHeader.congr ?_ hdrop
  rw [responsePack_types, addVia_types]

/-- The head of a response announces trailers only where they are promised and the response
has a body. -/
theorem mkResponceHeader_silent {req : Req σ} (hx : req.xheaders.announces = false)
    (ha : (mkResponceHeader cfg req).responseHeader.announces = true) :
    req.trailerNames.isSome = true ∧ (mkResponceHeader cfg req).responceHasbody = true := by
  obtain ⟨line, heq, hline⟩ := mkResponceHeader_header cfg req
  have hnames : (mkStart cfg req).trailerNames = req.trailerNames := by rw [mkStart_only cfg req]
  have hstart : (mkStart cfg req).responseHeader.announces = false := by
    rw [mkStart_header]
    exact startHead_silent cfg (statusLine_silent _) hx
  rw [mkResponceHeader_hasbody, ← hnames]
  by_contra hno
  have hsame : announceTrailers (mkStart cfg req) = (mkStart cfg req).responseHeader := by
    unfold announceTrailers
    split
    · rename_i names heq'
      split
      · rename_i hb
        exact absurd ⟨by rw [heq']; rfl, hb.1⟩ hno
      · rfl
    · rfl
  rw [heq, Headers.pack_announces, hsame, Headers.announces_add hstart hline] at ha
  cases ha

/-- Promised trailers are announced in the head of a response with a body, where the list has
room for the lines. -/
theorem mkResponceHeader_announces {req : Req σ} {names : List UInt8}
    (hnames : req.trailerNames = some names) (hn : named trailerName names = true)
    (hbody : (mkResponceHeader cfg req).responceHasbody = true)
    (hcode : req.returnCode = some .ec200 ∨ req.returnCode = some .ec206)
    (hroom : req.responseHeader.reset.Room (req.xheaders.lines.length + 6)) :
    (mkResponceHeader cfg req).responseHeader.announces = true := by
  obtain ⟨line, heq, -⟩ := mkResponceHeader_header cfg req
  have hnames' : (mkStart cfg req).trailerNames = some names := by
    rw [mkStart_only cfg req]
    exact hnames
  have hcode' : (mkStart cfg req).returnCode = some .ec200 ∨
      (mkStart cfg req).returnCode = some .ec206 := by
    rw [mkStart_only cfg req]
    exact hcode
  rw [mkResponceHeader_hasbody] at hbody
  have hr : (mkStartHead cfg req).Room 2 := startHead_room cfg hroom _
  -- the line `Allow: trailers` leaves room for the names
  obtain ⟨size, hadd⟩ : ∃ size,
      ((mkStartHead cfg req).add (bytes "Allow: trailers")).add names = _ :=
    Headers.add_of_room ((Headers.add_packed _ _).trans (startHead_packed cfg req _))
      (Headers.Room.add hr _)
  have hann : announceTrailers (mkStart cfg req) =
      ((mkStartHead cfg req).add (bytes "Allow: trailers")).add names := by
    unfold announceTrailers
    rw [hnames']
    dsimp only
    rw [if_pos ⟨hbody, hcode'⟩, mkStart_header]
  rw [heq, Headers.pack_announces, hann]
  refine any_eq_true.mpr ⟨names, ?_, hn⟩
  rcases Headers.texts_add (((mkStartHead cfg req).add (bytes "Allow: trailers")).add names) line
    with h | h <;> rw [h, hadd] <;> simp [Headers.texts]

/-- Only the fields that `update_send_status` writes differ. -/
def Req.UpdateOnly (r r' : Req σ) : Prop :=
  r' = { r with
    responseHeader := r'.responseHeader, entities := r'.entities, trash := r'.trash
    responceHasbody := r'.responceHasbody, packed := r'.packed
    block := r'.block, status := r'.status, xtrailers := r'.xtrailers }

theorem updateSendStatus_only (req : Req σ) : req.UpdateOnly (updateSendStatus cfg req).2 := by
  unfold updateSendStatus
  split
  · unfold Req.UpdateOnly
    rw [mkResponceHeader_only cfg req]
  · rfl
  · split
    · split
      · unfold startTrailers
        split <;> rfl
      · rfl
    · rfl
  · rfl
  · split
    · unfold nextBlock
      split
      · rfl
      · split <;> rfl
    · rfl

/-! ## The other heads -/

theorem ecHead_silent (hx : req.xheaders.announces = false) (ec : Ec) :
    (ecHead cfg req ec).announces = false := by
  unfold ecHead
  rw [Headers.pack_announces]
  have h0 : (startHead cfg req (if (decide (ec = .ec204) && cfg.allow204As200okZeroEncaps) = true
      then Ec.ec200 else ec).statusLine).announces = false :=
    startHead_silent cfg (statusLine_silent _) hx
  split_ifs at h0 ⊢
  · exact Headers.announces_add h0 (by decide)
  · exact Headers.announces_add h0 (by decide)
  · exact h0

theorem transferLine_silent {name : List UInt8} (hlen : 7 < name.length)
    (hname : named trailerName name = false) (value : Option (List UInt8)) :
    ∀ l ∈ transferLine name value, named trailerName l = false := by
  intro l hl
  cases value with
  | none => simp [transferLine] at hl
  | some v =>
    simp only [transferLine, Option.map_some, Option.getD_some, mem_singleton] at hl
    rw [hl, named_trailer_take (by decide), named_trailer_append hlen, hname]

theorem eq_of_mem_ite {c : Prop} [Decidable c] {l line : List UInt8}
    (h : l ∈ if c then [line] else []) : l = line := by
  split at h
  · exact mem_singleton.mp h
  · cases h

theorem optionsLines_silent (m : Service σ) (date : List UInt8) :
    ∀ l ∈ optionsLines cfg m date, named trailerName l = false := by
  have hcut : ∀ l : List UInt8, named trailerName
      ((bytes "Service: C-ICAP/" ++ cfg.version ++ bytes " server - " ++ l).take maxHeaderSize) =
        false := by
    intro l
    exact named_trailer_cons (by decide) _
  intro l hl
  unfold optionsLines at hl
  simp only [mem_append] at hl
  rcases hl with (((((((h | h) | h) | h) | h) | h) | h) | h) | h
  · rw [eq_of_mem_ite h]
    exact named_trailer_cons (by decide) _
  · simp only [mem_cons, not_mem_nil, or_false] at h
    rcases h with rfl | rfl
    · exact hcut _
    · exact istagLine_silent m
  · rcases h with (h | h) | h
    · split_ifs at h
      · exact transferLine_silent (by decide) (by decide) _ l h
      · cases h
    all_goals exact transferLine_silent (by decide) (by decide) _ l h
  · rw [eq_of_mem_ite h]
    decide
  · simp only [mem_cons, not_mem_nil, or_false] at h
    rcases h with rfl | rfl
    · split_ifs
      · exact named_trailer_cons (by decide) _
      · decide
    · exact named_trailer_cons (by decide) _
  · rw [eq_of_mem_ite h]
    exact named_trailer_cons (by decide) _
  · rw [eq_of_mem_ite h]
    exact named_trailer_cons (by decide) _
  · split_ifs at h
    · rw [mem_singleton.mp h]
      decide
    · rw [mem_singleton.mp h]
      decide
    · cases h
  · split at h
    · cases h
    · rw [mem_singleton.mp h]
      exact named_trailer_cons (by decide) _

theorem optionsHead_silent (hx : req.xheaders.announces = false) (m : Service σ)
    (ok : Bool) (date : List UInt8) :
    (optionsHead cfg req m ok date).responseHeader.announces = false := by
  have h0 : (req.responseHeader.reset.addAll ((if ok then bytes "ICAP/1.0 200 OK"
      else bytes "ICAP/1.0 500 Server Error") :: optionsLines cfg m date)).announces = false := by
    refine Headers.announces_addAll rfl fun l hl => ?_
    rcases mem_cons.mp hl with rfl | h
    · split_ifs <;> decide
    · exact optionsLines_silent cfg m date l h
  unfold optionsHead responsePack
  rw [Headers.pack_announces]
  refine Headers.announces_add ?_ ?_
  · split
    · exact h0
    · exact Headers.announces_addHeaders h0 hx
  · unfold encapsulatedLine
    split
    · decide
    · rw [append_assoc, named_trailer_append (by decide)]
      decide

end CIcap
