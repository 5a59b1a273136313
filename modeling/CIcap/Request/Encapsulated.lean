import CIcap.Request.Head

/-! # The Encapsulated header

`ci_request_t_pack` writes the offsets of the encapsulated blocks into the head before the
blocks are sent. This file has the offsets: the text they are written in and what
`process_encapsulated` reads back from it, and when they are the places of the blocks in a
sequence of blocks. Which blocks the server and the client send is in `Request/Blocks.lean`.
-/

namespace CIcap

open CText List

variable {σ : Type}

/-! ## The text -/

def Entity.entry (e : Entity) : EntityType × Int := (e.type, e.start)

def Entity.entryText (e : Entity) : List UInt8 := e.type.text ++ [61] ++ natText 10 e.start.toNat

def moreEntries (es : List Entity) : List UInt8 := es.flatMap fun e => bytes ", " ++ e.entryText

/-- The entity can be written and read back. -/
def Entity.Plain (e : Entity) : Prop := e.type ≠ .optBody ∧ 0 ≤ e.start ∧ e.start < 2 ^ 31

/-- `strtol` on the text of a number, at the end of a string or before a comma. -/
theorem strtolStr_natText {n : Nat} (hn : n < 2 ^ 63) {rest : List UInt8}
    (hrest : ∀ b ∈ rest.head?, b = 44) : strtolStr 10 (natText 10 n ++ rest) = ((n : Int), rest) := by
  have hne := natText_ne_nil (show 2 ≤ 10 by omega) (by omega) n
  have hds := natText_allDigits (show 2 ≤ 10 by omega) (by omega) n
  have hval := digitsValue_natText (show 2 ≤ 10 by omega) (by omega) n
  -- the byte behind the digits is the comma or the zero that ends the string
  obtain ⟨b, tail, htail, hb, hbx⟩ : ∃ b tail, rest ++ [0] = b :: tail ∧
      digitVal 10 b = none ∧ b ≠ 120 ∧ b ≠ 88 := by
    cases rest with
    | nil => exact ⟨0, [], rfl, by decide, by decide⟩
    | cons b rest =>
      obtain rfl := hrest b rfl
      exact ⟨44, rest ++ [0], rfl, by decide, by decide⟩
  have hlong := strtol_digits hne hds (by omega) hb hbx (by rw [hval]; exact hn) tail
  rw [hval, ← htail] at hlong
  unfold strtolStr
  rw [append_assoc, hlong]
  simp

variable {e : Entity} {k : Nat} {es hs bs : List Entity}

/-- `get_encaps_type` reads an entry back. -/
theorem getEncapsType_entryText (he : e.Plain) {rest : List UInt8}
    (hrest : ∀ b ∈ rest.head?, b = 44) :
    getEncapsType (e.entryText ++ rest) = some (e.type, e.start, rest) := by
  obtain ⟨type, start, headers⟩ := e
  obtain ⟨hopt, h0, h1⟩ := he
  have hnum : strtolStr 10 (natText 10 start.toNat ++ rest) = ((start.toNat : Int), rest) :=
    strtolStr_natText (by dsimp only at h0 h1; omega) hrest
  have hint : toInt32 (start.toNat : Int) = start := by
    unfold toInt32
    rw [Int.bmod_eq_of_le] <;> dsimp only at h0 h1 <;> omega
  have hentry (t : EntityType) : some (t, toInt32 (strtolStr 10 (natText 10 start.toNat ++ rest)).1,
      (strtolStr 10 (natText 10 start.toNat ++ rest)).2) = some (t, start, rest) := by
    rw [hnum, hint]
  cases type with
  | reqHdr | resHdr | reqBody | resBody | nullBody => exact hentry _
  | optBody => exact absurd rfl hopt

/-- What the loop of `process_encapsulated` reads next: the separators are skipped. -/
def nextEntries (es : List Entity) : List UInt8 :=
  (moreEntries es).dropWhile (fun b => isSpace b || b = 44)

theorem nextEntries_cons (he : e.type ≠ .optBody) (es : List Entity) :
    nextEntries (e :: es) = e.entryText ++ moreEntries es := by
  obtain ⟨type, start, headers⟩ := e
  cases type with
  | optBody => exact absurd rfl he
  | _ => rfl

theorem head_moreEntries (es : List Entity) : ∀ b ∈ (moreEntries es).head?, b = 44 := by
  cases es with
  | nil => simp [moreEntries]
  | cons e es =>
    intro b hb
    exact (Option.some.inj hb).symm

theorem allocEntity_entry (req : Req σ) (type : EntityType) (start : Int) :
    (req.allocEntity type start).1.entry = (type, start) ∧
      (req.allocEntity type start).2.entities = req.entities := by
  unfold Req.allocEntity
  split <;> exact ⟨rfl, rfl⟩

/-- The loop reads the entries that are left and puts their entities behind those it has. -/
theorem encapsLoop_entries (es : List Entity) (hes : ∀ e ∈ es, e.Plain) :
    ∀ (fuel : Nat) (req : Req σ) (hasbody : Bool), es.length < fuel →
      req.entities.length + es.length ≤ 6 →
      ∃ r, encapsLoop fuel req req.entities.length hasbody (nextEntries es) = (.ec100, r) ∧
        r.entities.map Entity.entry = req.entities.map Entity.entry ++ es.map Entity.entry := by
  induction es with
  | nil =>
    intro fuel req hasbody hfuel _
    obtain ⟨fuel, rfl⟩ : ∃ k, fuel = k + 1 := ⟨fuel - 1, by simp at hfuel; omega⟩
    exact ⟨{ req with hasbody := hasbody }, rfl, by simp⟩
  | cons e es ih =>
    intro fuel req hasbody hfuel hlen
    obtain ⟨fuel, rfl⟩ : ∃ k, fuel = k + 1 := ⟨fuel - 1, by omega⟩
    simp only [length_cons] at hfuel hlen
    have he := hes e (by simp)
    have hread := getEncapsType_entryText he (head_moreEntries es)
    have hne : e.entryText ++ moreEntries es ≠ [] := by simp [Entity.entryText]
    obtain ⟨hentry, hkeep⟩ := allocEntity_entry req e.type e.start
    rw [nextEntries_cons he.1, encapsLoop, if_neg hne, hread]
    dsimp only
    rw [if_neg (by omega), hkeep, take_length, drop_eq_nil_of_le (by omega), append_nil]
    have hnum : req.entities.length + 1 =
        (req.entities ++ [(req.allocEntity e.type e.start).1]).length := by simp
    obtain ⟨r, hr, hentries⟩ := ih (fun x hx => hes x (by simp [hx])) fuel
      { (req.allocEntity e.type e.start).2 with
        entities := req.entities ++ [(req.allocEntity e.type e.start).1] }
      (if e.type = .nullBody then false else hasbody) (by omega)
      (by dsimp only; omega)
    refine ⟨r, ?_, ?_⟩
    · rw [hnum]
      exact hr
    · rw [hentries, map_append, map_singleton, hentry, append_assoc]
      rfl

theorem getEncapsType_lt {s : List UInt8} {p : EntityType × Int × List UInt8}
    (h : getEncapsType s = some p) : p.2.1 < 2 ^ 31 := by
  have hlt : ∀ z, toInt32 z < 2 ^ 31 := fun z =>
    (Int.bmod_lt (x := z) (m := 2 ^ 32) (by decide)).trans_le (by decide)
  unfold getEncapsType at h
  split_ifs at h <;> (rw [← Option.some.inj h]; exact hlt _)

/-- The offsets that `process_encapsulated` can read fit an `int`. -/
theorem encapsLoop_start (fuel : Nat) : ∀ (req : Req σ) (num : Nat) (hasbody : Bool)
    (s : List UInt8), ∀ e ∈ (encapsLoop fuel req num hasbody s).2.entities,
      e ∈ req.entities ∨ e.start < 2 ^ 31 := by
  induction fuel with
  | zero => intro req num hasbody s e he; exact .inl he
  | succ fuel ih =>
    intro req num hasbody s e he
    rw [encapsLoop] at he
    by_cases hs : s = []
    · rw [if_pos hs] at he
      exact .inl he
    rw [if_neg hs] at he
    cases hget : getEncapsType s with
    | none =>
      rw [hget] at he
      exact .inl he
    | some p =>
      rw [hget] at he
      dsimp only at he
      by_cases hnum : 5 < num
      · rw [if_pos hnum] at he
        exact .inl he
      rw [if_neg hnum] at he
      obtain ⟨hentry, hkeep⟩ := allocEntity_entry req p.1 p.2.1
      rcases ih _ _ _ _ e he with h | h
      · rw [hkeep] at h
        simp only [mem_append, mem_singleton] at h
        rcases h with (h | rfl) | h
        · exact .inl (mem_of_mem_take h)
        · exact .inr ((congrArg Prod.snd hentry).trans_lt (getEncapsType_lt hget))
        · exact .inl (mem_of_mem_drop h)
      · exact .inr h

/-! ## Offsets and sizes -/

def bytesBefore (es : List Entity) (k : Nat) : Nat := ((es.take k).map sizeofencaps).sum

/-- The entity with its header list packed. -/
def Entity.packed (e : Entity) : Entity :=
  if e.isHdr then { e with headers := e.headers.pack } else e

theorem packEntities_eq (es : List Entity) : packEntities es = es.map Entity.packed := rfl

theorem Entity.packed_entry (e : Entity) : e.packed.entry = e.entry := by
  unfold Entity.packed
  split_ifs <;> rfl

theorem Entity.packed_isHdr (e : Entity) : e.packed.isHdr = e.isHdr := by
  unfold Entity.packed
  split_ifs <;> rfl

variable (h : Headers)

/-- Packing does not change the size of a header list. -/
theorem Headers.length_pack : h.pack.buf.length = h.buf.length := by
  unfold Headers.pack
  split_ifs with hl
  · rfl
  · have hend : ∀ p c, (Headers.lineEnd p c).length = (Headers.lineEnd true c).length := by decide
    simp [Headers.buf, hl, hend h.packed]

theorem Entity.packed_size (e : Entity) : sizeofencaps e.packed = sizeofencaps e := by
  unfold sizeofencaps
  rw [e.packed_isHdr]
  split_ifs with h
  · simp [Entity.packed, h, Headers.length_pack]
  · rfl

theorem setStarts_getElem? (es : List Entity) : ∀ (start k : Nat), (setStarts start es)[k]? =
      (es[k]?).map fun e => { e with start := ((start + bytesBefore es k : Nat) : Int) } := by
  induction es with
  | nil => intro start k; simp [setStarts]
  | cons e es ih =>
    intro start k
    cases k with
    | zero => simp [setStarts, bytesBefore]
    | succ k => simp [setStarts, ih, bytesBefore, Nat.add_assoc]

theorem packedEntity (es : List Entity) (hk : k < 3) : (packEntities (placeEntities es))[k]? =
      (es[k]?).map fun e => ({ e with start := (bytesBefore es k : Int) } : Entity).packed := by
  have htake : bytesBefore (es.take 3) k = bytesBefore es k := by
    unfold bytesBefore
    rw [take_take, Nat.min_eq_left (by omega)]
  rw [packEntities_eq, getElem?_map, placeEntities]
  rcases Nat.lt_or_ge k es.length with hlt | hge
  · have hlen : (setStarts 0 (es.take 3)).length = min 3 es.length := by
      have := congrArg length (setStarts_types 0 (es.take 3))
      simpa using this
    rw [getElem?_append_left (by omega), setStarts_getElem?, htake,
      getElem?_take_of_lt hk, Option.map_map, Nat.zero_add]
    rfl
  · have hlen : (setStarts 0 (es.take 3) ++ es.drop 3).length = es.length := by
      have := congrArg length (placeEntities_types es)
      simpa [placeEntities] using this
    rw [getElem?_eq_none (by omega), getElem?_eq_none (by omega)]
    rfl

/-! ## Blocks and entries -/

def blockSize (es : List Entity) (k : Nat) : Nat := ((es[k]?).map sizeofencaps).getD 0

/-- The bytes of the first `k` blocks of those that are sent. -/
def sentBefore (es : List Entity) (sent : List Nat) (k : Nat) : Nat :=
  ((sent.take k).map (blockSize es)).sum

/-- The offsets of the entities are the places of their blocks when the header blocks `sent`,
named by their entities, are sent before the body: the block of an entity comes when the blocks
of all entities before it have been sent. -/
structure OffsetsMatch (es : List Entity) (sent : List Nat) : Prop where
  header : ∀ (k : Nat) (e : Entity), k < 3 → es[k]? = some e → e.isHdr = true →
    sent[k]? = some k ∧ e.start = sentBefore es sent k
  body : ∀ (k : Nat) (e : Entity), k < 3 → es[k]? = some e → e.isHdr = false →
    sent.length ≤ k ∧ e.start = sentBefore es sent sent.length

/-- The entries that a request object announces; without entities it is an empty body. -/
def announced (es : List Entity) : List (EntityType × Int) :=
  if es = [] then [(.nullBody, 0)] else es.map Entity.entry

/-- The head has got an `Encapsulated` header that `process_encapsulated` reads back. -/
def Announces (before after : Headers) (es : List Entity) : Prop :=
  ∃ line, after.texts = before.texts ++ [line] ∧ line.take 13 = bytes "Encapsulated:" ∧
    ∀ blank : Req Unit, blank.entities = [] → ∃ r,
      processEncapsulated blank (line.drop 13) = (.ec100, r) ∧
      r.entities.map Entity.entry = announced es

/-- At most three entities, the header lists `hs` first and the others behind them; the offsets
fit an `int`. -/
structure Layout (es hs bs : List Entity) : Prop where
  split : es = hs ++ bs
  headers : ∀ e ∈ hs, e.isHdr = true
  bodies : ∀ e ∈ bs, e.isHdr = false
  short : es.length ≤ 3
  fits : ∀ k < es.length, bytesBefore es k < 2 ^ 31

/-! ## Reading the header back -/

theorem Entity.entryText_length (e : Entity) : 8 ≤ e.entryText.length := by
  obtain ⟨type, start, headers⟩ := e
  cases type <;> simp [Entity.entryText, EntityType.text, bytes]

/-- The header of a list of entities, of which the first three are written. -/
theorem processEncapsulated_line (hne : es ≠ [])
    (hes : ∀ e ∈ es.take 3, e.Plain) (blank : Req σ) (hblank : blank.entities = []) :
    ∃ r, processEncapsulated blank ((encapsulatedLine es).drop 13) = (.ec100, r) ∧
      r.entities.map Entity.entry = (es.take 3).map Entity.entry := by
  obtain ⟨e, rest, htake⟩ : ∃ e rest, es.take 3 = e :: rest := by
    cases es with
    | nil => exact absurd rfl hne
    | cons e es => exact ⟨e, es.take 2, rfl⟩
  have hlen : (e :: rest).length ≤ 3 := by rw [← htake]; simp
  have he : e.Plain := hes e (by simp [htake])
  have hline : (encapsulatedLine es).drop 13 = 32 :: (e.entryText ++ moreEntries rest) := by
    unfold encapsulatedLine
    rw [htake]
    rfl
  have hskip : (32 :: (e.entryText ++ moreEntries rest)).dropWhile isSpace =
      nextEntries (e :: rest) := by
    obtain ⟨type, start, headers⟩ := e
    cases type with
    | optBody => exact absurd rfl he.1
    | _ => rfl
  have hfuel : (e :: rest).length < (32 :: (e.entryText ++ moreEntries rest)).length + 1 := by
    have := e.entryText_length
    simp only [length_cons, length_append] at *
    omega
  obtain ⟨r, hr, hentries⟩ := encapsLoop_entries (e :: rest) (by rw [← htake]; exact hes) _ blank
    true hfuel (by simp only [hblank, length_nil]; omega)
  refine ⟨r, ?_, ?_⟩
  · unfold processEncapsulated
    rw [hline, hskip]
    rw [hblank] at hr
    exact hr
  · rw [hentries, hblank, htake]
    rfl

/-- A line is added when the list can be edited and there is room. -/
theorem Headers.texts_add_iff (line l : List UInt8) :
    (h.add line).texts = h.texts ++ [l] ↔ (h.packed = false ∧ h.Room 1) ∧ l = line := by
  by_cases hroom : h.packed = false ∧ h.Room 1
  · obtain ⟨size, hadd⟩ := @Headers.add_of_room h line hroom.1 hroom.2
    rw [hadd]
    simp only [Headers.texts, map_append, map_singleton, append_cancel_left_eq, cons.injEq, and_true, hroom, true_and]
    exact eq_comm
  · have hadd : h.add line = h := by
      by_cases hp : h.packed = false
      · exact Headers.add_of_full (fun hr => hroom ⟨hp, hr⟩) line
      · simp [Headers.add, Headers.add?, hp]
    simp [hadd, hroom]

/-- The offset of an entity among the first three. -/
theorem placeEntities_getElem? (es : List Entity) (hk : k < 3) :
    ((placeEntities es)[k]?).map Entity.entry =
      (es[k]?).map fun e => (e.type, (bytesBefore es k : Int)) := by
  have h := congrArg (Option.map Entity.entry) (packedEntity es hk)
  rw [packEntities_eq, getElem?_map, Option.map_map, Option.map_map] at h
  calc ((placeEntities es)[k]?).map Entity.entry
      = ((placeEntities es)[k]?).map (Entity.entry ∘ Entity.packed) := by
        congr 1
        funext e
        exact e.packed_entry.symm
    _ = (es[k]?).map fun e => (e.type, (bytesBefore es k : Int)) := by
        rw [h]
        congr 1
        funext e
        exact Entity.packed_entry _

/-- An entity of the first three, by its position. -/
theorem exists_of_mem_place (he : e ∈ (placeEntities es).take 3) :
    ∃ k, k < 3 ∧ ∃ e₀, es[k]? = some e₀ ∧ e.type = e₀.type ∧ e.start = bytesBefore es k := by
  obtain ⟨k, hk⟩ := mem_iff_getElem?.mp he
  have hk3 : k < 3 := by
    by_contra hcon
    rw [getElem?_eq_none (by simp; omega)] at hk
    simp at hk
  rw [getElem?_take_of_lt hk3] at hk
  have hentry := placeEntities_getElem? es hk3
  rw [hk] at hentry
  cases hes : es[k]? with
  | none => rw [hes] at hentry; simp at hentry
  | some e₀ =>
    rw [hes] at hentry
    simp only [Option.map_some, Option.some.injEq, Entity.entry, Prod.mk.injEq] at hentry
    exact ⟨k, hk3, e₀, hes, hentry.1, hentry.2⟩

theorem placeEntities_length (es : List Entity) : (placeEntities es).length = es.length := by
  simpa using congrArg length (placeEntities_types es)

theorem packEntities_entries (es : List Entity) :
    (packEntities es).map Entity.entry = es.map Entity.entry := by
  rw [packEntities_eq, map_map]
  congr 1
  funext e
  exact e.packed_entry

/-- **The header is written and read back** exactly when the head can take a line, there are at
most three entities and the offsets fit an `int`. -/
theorem announces_iff (hopt : ∀ e ∈ es, e.type ≠ .optBody) :
    Announces h (h.add (encapsulatedLine (placeEntities es))).pack
        (packEntities (placeEntities es)) ↔
      (h.packed = false ∧ h.Room 1) ∧ es.length ≤ 3 ∧ ∀ k < es.length, bytesBefore es k < 2 ^ 31 := by
  unfold Announces
  simp only [Headers.pack_texts, Headers.texts_add_iff]
  by_cases hnil : es = []
  · subst hnil
    have hread : ∀ blank : Req Unit, blank.entities = [] → ∃ r,
        processEncapsulated blank ((encapsulatedLine (placeEntities [])).drop 13) = (.ec100, r) ∧
        r.entities.map Entity.entry = announced (packEntities (placeEntities [])) := by
      intro blank hblank
      have hplain : ∀ e ∈ [(⟨.nullBody, 0, {}⟩ : Entity)].take 3, e.Plain := by
        intro e he
        obtain rfl := mem_singleton.mp he
        exact ⟨by simp, by simp, by simp⟩
      exact processEncapsulated_line (by simp) hplain blank hblank
    constructor
    · rintro ⟨line, ⟨hroom, -⟩, -⟩
      exact ⟨hroom, by simp, by simp⟩
    · rintro ⟨hroom, -, -⟩
      exact ⟨_, ⟨hroom, rfl⟩, rfl, hread⟩
  · have hne : placeEntities es ≠ [] := by
      intro hcon
      have := placeEntities_length es
      rw [hcon] at this
      exact hnil (length_eq_zero_iff.mp this.symm)
    have hann : announced (packEntities (placeEntities es)) = (placeEntities es).map Entity.entry := by
      unfold announced
      rw [if_neg (by simpa [packEntities_eq] using hne), packEntities_entries]
    rw [hann]
    have hplain : (∀ k < es.length, k < 3 → bytesBefore es k < 2 ^ 31) →
        ∀ e ∈ (placeEntities es).take 3, e.Plain := by
      intro hfits e he
      obtain ⟨k, hk, e₀, he₀, htype, hstart⟩ := exists_of_mem_place he
      have hlt := (List.getElem?_eq_some_iff.mp he₀).1
      refine ⟨by rw [htype]; exact hopt e₀ (mem_of_getElem? he₀), by omega, ?_⟩
      have := hfits k hlt hk
      omega
    constructor
    · rintro ⟨line, ⟨hroom, rfl⟩, -, hread⟩
      obtain ⟨r, hr, hentries⟩ := hread {} rfl
      -- every offset that was read fits an `int`, so those that were written do
      have hlt : ∀ e ∈ placeEntities es, e.start < 2 ^ 31 := by
        intro e he
        have hmem : e.entry ∈ r.entities.map Entity.entry := by
          rw [hentries]; exact mem_map_of_mem he
        obtain ⟨x, hx, hxe⟩ := mem_map.mp hmem
        have hstart := encapsLoop_start _ ({} : Req Unit) 0 true _ x
          (by unfold processEncapsulated at hr; rw [hr]; exact hx)
        rcases hstart with hcon | hstart
        · simp at hcon
        · have : x.start = e.start := congrArg Prod.snd hxe
          omega
      have hfits : ∀ k < es.length, k < 3 → bytesBefore es k < 2 ^ 31 := by
        intro k hk hk3
        have hentry := placeEntities_getElem? es hk3
        rw [getElem?_eq_getElem hk] at hentry
        cases hp : (placeEntities es)[k]? with
        | none => rw [hp] at hentry; simp at hentry
        | some e =>
          rw [hp] at hentry
          simp only [Option.map_some, Option.some.injEq, Entity.entry, Prod.mk.injEq] at hentry
          have := hlt e (mem_of_getElem? hp)
          omega
      obtain ⟨r', hr', hentries'⟩ := processEncapsulated_line hne (hplain hfits) ({} : Req Unit) rfl
      rw [hr] at hr'
      obtain rfl := (Prod.mk.inj hr').2
      have hlen := congrArg length (hentries.symm.trans hentries')
      simp only [length_map, length_take, placeEntities_length] at hlen
      exact ⟨hroom, by omega, fun k hk => hfits k hk (by omega)⟩
    · rintro ⟨hroom, hlen, hfits⟩
      refine ⟨_, ⟨hroom, rfl⟩, ?_, fun blank hblank => ?_⟩
      · unfold encapsulatedLine
        split
        all_goals rfl
      · obtain ⟨r, hr, hentries⟩ :=
          processEncapsulated_line hne (hplain fun k hk _ => hfits k hk) blank hblank
        rw [take_of_length_le (by rw [placeEntities_length]; exact hlen)] at hentries
        exact ⟨r, hr, hentries⟩

/-! ## The places of the blocks -/

theorem bytesBefore_succ (es : List Entity) (k : Nat) :
    bytesBefore es (k + 1) = bytesBefore es k + ((es[k]?).map sizeofencaps).getD 0 := by
  unfold bytesBefore
  rw [take_add_one]
  cases es[k]? <;> simp

theorem blockSize_packed (es : List Entity) (hk : k < 3) :
    blockSize (packEntities (placeEntities es)) k = ((es[k]?).map sizeofencaps).getD 0 := by
  unfold blockSize
  rw [packedEntity _ hk, Option.map_map]
  congr 2
  funext e
  exact Entity.packed_size _

theorem sentBefore_range (es : List Entity) {m : Nat} (hk : k ≤ m) (hm : m ≤ 3) :
    sentBefore (packEntities (placeEntities es)) (range m) k = bytesBefore es k := by
  unfold sentBefore
  rw [take_range, Nat.min_eq_left hk]
  induction k with
  | zero => rfl
  | succ k ih =>
    rw [range_succ, map_append, sum_append, ih (by omega), bytesBefore_succ,
      map_singleton, sum_singleton, blockSize_packed es (by omega)]

/-- Entities that are no header lists take no place. -/
theorem bytesBefore_bodies {m : Nat}
    (hbody : ∀ i e, m ≤ i → es[i]? = some e → e.isHdr = false) (hk : m ≤ k) :
    bytesBefore es k = bytesBefore es m := by
  induction k, hk using Nat.le_induction with
  | base => rfl
  | succ k hmk ih =>
    rw [bytesBefore_succ, ih]
    cases he : es[k]? with
    | none => rfl
    | some e => simp [sizeofencaps, hbody k e hmk he]

section

variable (hl : Layout es hs bs)
include hl

/-- In a layout an entity is a header list exactly when it is one of the first. -/
theorem Layout.isHdr_iff (he : es[k]? = some e) : e.isHdr = true ↔ k < hs.length := by
  rw [hl.split] at he
  rcases Nat.lt_or_ge k hs.length with hlt | hge
  · rw [getElem?_append_left hlt] at he
    exact iff_of_true (hl.headers e (mem_of_getElem? he)) hlt
  · rw [getElem?_append_right hge] at he
    have := hl.bodies e (mem_of_getElem? he)
    exact iff_of_false (by simp [this]) (by omega)

theorem Layout.length_le : hs.length ≤ 3 := by
  have h1 := hl.short
  rw [hl.split, length_append] at h1
  omega

/-- The offsets of a layout are right when its header blocks are sent in order. -/
theorem Layout.offsetsMatch : OffsetsMatch (packEntities (placeEntities es)) (range hs.length) := by
  -- an entity of the packed request and the one it comes from
  have hfrom : ∀ (k : Nat) (e : Entity), k < 3 → (packEntities (placeEntities es))[k]? = some e →
      ∃ e₀, es[k]? = some e₀ ∧ e.isHdr = e₀.isHdr ∧ e.start = bytesBefore es k := by
    intro k e hk he
    rw [packedEntity _ hk] at he
    obtain ⟨e₀, he₀, rfl⟩ := Option.map_eq_some_iff.mp he
    exact ⟨e₀, he₀, Entity.packed_isHdr _, congrArg Prod.snd (Entity.packed_entry _)⟩
  refine ⟨fun k e hk he hhdr => ?_, fun k e hk he hhdr => ?_⟩
  · obtain ⟨e₀, he₀, h1, h2⟩ := hfrom k e hk he
    have hlt : k < hs.length := (hl.isHdr_iff he₀).mp (h1.symm.trans hhdr)
    refine ⟨getElem?_range hlt, ?_⟩
    rw [h2, sentBefore_range es hlt.le hl.length_le]
  · obtain ⟨e₀, he₀, h1, h2⟩ := hfrom k e hk he
    have hge : hs.length ≤ k := by
      by_contra hcon
      have := (hl.isHdr_iff he₀).mpr (by omega)
      rw [← h1, hhdr] at this
      simp at this
    refine ⟨by simpa using hge, ?_⟩
    rw [h2, length_range, sentBefore_range es le_rfl hl.length_le]
    refine congrArg _ (bytesBefore_bodies (fun i x hi hx => ?_) hge)
    by_contra hcon
    have := (hl.isHdr_iff hx).mp (by simpa using hcon)
    omega

end

/-- Entities whose offsets are right form a layout, with the blocks that are sent as its header
blocks. -/
theorem OffsetsMatch.layout {sent : List Nat}
    (hm : OffsetsMatch (packEntities (placeEntities es)) sent) (hlen : es.length ≤ 3)
    (hfits : ∀ k < es.length, bytesBefore es k < 2 ^ 31) :
    Layout es (es.take sent.length) (es.drop sent.length) := by
  have hto : ∀ (k : Nat) (e : Entity), es[k]? = some e → ∃ e',
      (packEntities (placeEntities es))[k]? = some e' ∧ e'.isHdr = e.isHdr ∧ k < 3 := by
    intro k e he
    have hk : k < 3 := ((List.getElem?_eq_some_iff.mp he).1).trans_le hlen
    refine ⟨_, ?_, Entity.packed_isHdr { e with start := (bytesBefore es k : Int) }, hk⟩
    rw [packedEntity _ hk, he]
    rfl
  refine ⟨(take_append_drop _ _).symm, fun e he => ?_, fun e he => ?_, hlen, hfits⟩
  · obtain ⟨k, hk⟩ := mem_iff_getElem?.mp he
    have hlt : k < sent.length := by
      by_contra hcon
      rw [getElem?_eq_none (by simp; omega)] at hk
      simp at hk
    rw [getElem?_take_of_lt hlt] at hk
    obtain ⟨e', he', hhdr, hk3⟩ := hto k e hk
    by_contra hcon
    have := (hm.body k e' hk3 he' (by rw [hhdr]; simpa using hcon)).1
    omega
  · obtain ⟨k, hk⟩ := mem_iff_getElem?.mp he
    rw [getElem?_drop] at hk
    obtain ⟨e', he', hhdr, hk3⟩ := hto _ e hk
    by_contra hcon
    have hsent := (hm.header _ e' hk3 he' (by rw [hhdr]; simpa using hcon)).1
    have := (List.getElem?_eq_some_iff.mp hsent).1
    omega

end CIcap
