import CIcap.Client.Frame
import CIcap.Header.Lines
import CIcap.Request.Encapsulated
import CIcap.Chunk.Decode

/-! # Responses

What a server may send: a head with a status line, an `Encapsulated` header and other lines, at
most one block of encapsulated headers, and a chunked body. This file has the well-formed
responses (`Response`) and what the functions of the client library read from their heads.
-/

namespace CIcap

open CText Chunked List

/-! ## The status line -/

/-- A conversion `%d` takes the digits that stand before another character, or as many as it
may. -/
theorem scanInt_digits (ds rest : List UInt8) {width : Nat} (hne : ds ≠ []) (hds : AllDigits 10 ds)
    (hend : ds.length = width ∨ ds.length < width ∧ ∀ b ∈ rest.head?, digitVal 10 b = none) :
    Client.scanInt width (ds ++ rest) = some ((digitsValue 10 ds : Int), rest) := by
  obtain ⟨d, ds', hcons⟩ := exists_cons_of_ne_nil hne
  have hd : (digitVal 10 d).isSome := hds d (by simp [hcons])
  have hspace : (ds ++ rest).dropWhile isSpace = ds ++ rest := by
    rw [hcons]
    simp [(not_space_of_digit hd (by omega)).1]
  have hsign : takeSign (ds ++ rest) = (false, ds ++ rest) := by
    rw [hcons]
    exact takeSign_of_digit hd (by omega) _
  have htake : ((ds ++ rest).take width).takeWhile (fun b => (digitVal 10 b).isSome) = ds := by
    rcases hend with hlen | ⟨hlt, hstop⟩
    · rw [← hlen, take_left]
      exact takeWhile_eq_self_iff.mpr hds
    · rw [take_append, take_of_length_le (by omega), takeWhile_append_of_pos hds]
      cases rest with
      | nil => simp
      | cons b rest =>
        have hb := hstop b rfl
        obtain ⟨k, hk⟩ : ∃ k, width - ds.length = k + 1 := ⟨width - ds.length - 1, by omega⟩
        rw [hk, take_succ_cons, takeWhile_cons_of_neg (by simp [hb]), append_nil]
  unfold Client.scanInt
  dsimp only
  rw [hspace, hsign]
  rw [Nat.sub_self, Nat.sub_zero, htake, if_neg hne, drop_left]
  rfl

/-- The first line of a response: the version, a status code of three digits, and a text. -/
structure StatusLine where
  code : List UInt8
  reason : List UInt8
  digits : AllDigits 10 code
  three : code.length = 3
  plain : ∀ b ∈ reason, PlainByte b

namespace StatusLine

def text (l : StatusLine) : List UInt8 := bytes "ICAP/1.0 " ++ l.code ++ l.reason

def status (l : StatusLine) : Int := digitsValue 10 l.code

theorem plain_of_digit {b : UInt8} (h : (digitVal 10 b).isSome) : PlainByte b := by
  have hr := digitVal_some_range h (by omega)
  refine ⟨?_, ?_, ?_⟩ <;> (rintro rfl; revert hr; decide)

theorem textLine (l : StatusLine) : TextLine l.text where
  ne := by simp [text, bytes]
  plain := by
    have hversion : ∀ b ∈ bytes "ICAP/1.0 ", PlainByte b := by decide
    intro b hb
    rcases mem_append.mp hb with hb | hb
    · rcases mem_append.mp hb with hb | hb
      · exact hversion b hb
      · exact plain_of_digit (l.digits b hb)
    · exact l.plain b hb
  start := by
    intro b hb
    obtain rfl := Option.some.inj (show some 73 = some b from hb)
    decide

/-- `sscanf` reads the status code of a head. -/
theorem scanStatus_text (l : StatusLine) (rest : List UInt8) :
    Client.scanStatus (l.text ++ rest) = some l.status := by
  have hne : l.code ≠ [] := by
    intro h
    have := l.three
    rw [h] at this
    cases this
  -- the three conversions, from the last to the first
  have hcode : Client.scanInt 3 (32 :: (l.code ++ (l.reason ++ rest))) =
      some (l.status, l.reason ++ rest) :=
    scanInt_digits _ _ hne l.digits (.inl l.three)
  have hminor : ∀ s, Client.scanInt (48 :: 32 :: s).length (48 :: 32 :: s) = some (0, 32 :: s) :=
    fun s => scanInt_digits [48] (32 :: s) (by simp) (by decide)
      (.inr ⟨by simp, by rintro b ⟨rfl⟩; decide⟩)
  have hmajor : ∀ (n : Nat) (s : List UInt8), 2 ≤ n →
      Client.scanInt n (49 :: 46 :: s) = some (1, 46 :: s) :=
    fun n s hn => scanInt_digits [49] (46 :: s) (by simp) (by decide)
      (.inr ⟨by simp; omega, by rintro b ⟨rfl⟩; decide⟩)
  have htext : l.text ++ rest =
      bytes "ICAP/" ++ (49 :: 46 :: 48 :: 32 :: (l.code ++ (l.reason ++ rest))) := by
    simp [text, bytes]
  unfold Client.scanStatus
  rw [htext]
  have hdrop : (bytes "ICAP/" ++ (49 :: 46 :: 48 :: 32 :: (l.code ++ (l.reason ++ rest)))).drop 5 =
      49 :: 46 :: 48 :: 32 :: (l.code ++ (l.reason ++ rest)) := rfl
  rw [hdrop, hmajor _ _ (by simp; omega)]
  show (Client.scanInt _ (48 :: 32 :: (l.code ++ (l.reason ++ rest)))).bind _ = _
  rw [hminor, Option.bind_some, hcode]
  rfl

end StatusLine

/-! ## Well-formed responses -/

/-- A well-formed response with a chunked body: a status line, an `Encapsulated` header between
other lines, at most one block of encapsulated headers that an empty line ends, and the body. -/
structure Response where
  first : StatusLine
  before : List (List UInt8)
  after : List (List UInt8)
  /-- the name of the `Encapsulated` header, in any spelling -/
  name : List UInt8
  header : Option (EntityType × List UInt8)
  bodyType : EntityType
  chunks : List Chunk
  last : LastChunk
  /-- neither `100 Continue` nor `204 No Content` has a body -/
  final : first.status ≠ 100 ∧ first.status ≠ 204
  before_lines : ∀ l ∈ before, TextLine l ∧ Headers.named (bytes "Encapsulated") l = false
  after_lines : ∀ l ∈ after, TextLine l
  name_spelled : name.map lower = bytes "encapsulated"
  header_block : ∀ type block, header = some (type, block) →
    (type = .reqHdr ∨ type = .resHdr) ∧ crlf ++ crlf <:+ block ∧ block.length < 2 ^ 31
  body_type : bodyType = .reqBody ∨ bodyType = .resBody

namespace Response

variable (r : Response)

/-- The entities of a response. -/
def entities : List Entity :=
  match r.header with
  | none => [{ type := r.bodyType, start := 0 }]
  | some (type, block) =>
    [{ type := type, start := 0 }, { type := r.bodyType, start := block.length }]

/-- The `Encapsulated` header. -/
def encapsLine : List UInt8 := r.name ++ (encapsulatedLine r.entities).drop 12

def lines : List (List UInt8) := r.first.text :: (r.before ++ r.encapsLine :: r.after)

def head : List UInt8 := headText r.lines

def block : List UInt8 := (r.header.map Prod.snd).getD []

def bytes : List UInt8 := r.head ++ r.block ++ enc r.chunks ++ r.last.enc

/-- The entries of the `Encapsulated` header. -/
theorem plain_entities : ∀ e ∈ r.entities, e.Plain := by
  have hbody : r.bodyType ≠ .optBody := by
    rcases r.body_type with h | h <;> rw [h] <;> decide
  intro e he
  unfold entities at he
  split at he
  · obtain rfl := mem_singleton.mp he
    exact ⟨hbody, le_refl _, by norm_num⟩
  · rename_i type block hh
    obtain ⟨ht, -, hlen⟩ := r.header_block type block hh
    rcases mem_cons.mp he with rfl | he
    · refine ⟨?_, le_refl _, by norm_num⟩
      rcases ht with rfl | rfl <;> decide
    · obtain rfl := mem_singleton.mp he
      exact ⟨hbody, by dsimp only; omega, by dsimp only; omega⟩

theorem entities_ne : r.entities ≠ [] := by
  unfold entities
  split <;> simp

theorem entities_short : r.entities.take 3 = r.entities := by
  unfold entities
  split <;> rfl

theorem name_length : r.name.length = 12 := by
  have h := congrArg length r.name_spelled
  rw [length_map] at h
  rw [h]
  decide

theorem plain_entryText {e : Entity} (he : e.Plain) : ∀ b ∈ e.entryText, PlainByte b := by
  intro b hb
  have htext : ∀ type : EntityType, type ≠ .optBody → ∀ b ∈ type.text ++ [61], PlainByte b := by
    intro type
    cases type <;> decide
  rcases mem_append.mp hb with hb | hb
  · exact htext e.type he.1 b hb
  · exact StatusLine.plain_of_digit (natText_allDigits (by omega) (by omega) _ b hb)

theorem plain_encapsulatedLine {es : List Entity} (hes : ∀ e ∈ es.take 3, e.Plain) :
    ∀ b ∈ encapsulatedLine es, PlainByte b := by
  have hname : ∀ b ∈ CText.bytes "Encapsulated: ", PlainByte b := by decide
  have hnull : ∀ b ∈ CText.bytes "Encapsulated: null-body=0", PlainByte b := by decide
  have hcomma : ∀ b ∈ CText.bytes ", ", PlainByte b := by decide
  intro b hb
  unfold encapsulatedLine at hb
  split at hb
  · exact hnull b hb
  rename_i e rest htake
  rcases mem_append.mp hb with hb | hb
  · rcases mem_append.mp hb with hb | hb
    · exact hname b hb
    · exact plain_entryText (hes e (by simp [htake])) b hb
  · obtain ⟨x, hx, hb⟩ := mem_flatMap.mp hb
    rcases mem_append.mp hb with hb | hb
    · exact hcomma b hb
    · exact plain_entryText (hes x (by simp [htake, hx])) b hb

theorem textLine_encapsLine : TextLine r.encapsLine where
  ne := by
    intro h
    have := congrArg length h
    simp [encapsLine, r.name_length] at this
  plain := by
    intro b hb
    rcases mem_append.mp hb with hb | hb
    · have hmem : lower b ∈ CText.bytes "encapsulated" := by
        rw [← r.name_spelled]
        exact mem_map_of_mem hb
      refine ⟨?_, ?_, ?_⟩ <;> (rintro rfl; revert hmem; decide)
    · exact plain_encapsulatedLine (by rw [r.entities_short]; exact r.plain_entities) b
        (mem_of_mem_drop hb)
  start := by
    intro b hb
    have hmem : lower b ∈ CText.bytes "encapsulated" := by
      rw [← r.name_spelled]
      refine mem_map_of_mem (mem_of_mem_head? ?_)
      rw [encapsLine, head?_append_of_ne_nil] at hb
      · exact hb
      · intro h
        have := r.name_length
        rw [h] at this
        cases this
    refine ⟨?_, ?_⟩ <;> (rintro rfl; revert hmem; decide)

theorem textLine_lines : ∀ l ∈ r.lines, TextLine l := by
  intro l hl
  rcases mem_cons.mp hl with rfl | hl
  · exact r.first.textLine
  · rcases mem_append.mp hl with hl | hl
    · exact (r.before_lines l hl).1
    · rcases mem_cons.mp hl with rfl | hl
      · exact r.textLine_encapsLine
      · exact r.after_lines l hl

theorem lines_ne : r.lines ≠ [] := cons_ne_nil _ _

theorem endsHead : EndsHead r.head := endsHead_headText r.lines_ne r.textLine_lines

/-- The `Encapsulated` header is the first one of its name. -/
theorem find_encapsulated :
    r.lines.find? (Headers.named (CText.bytes "Encapsulated")) = some r.encapsLine := by
  have hfirst : Headers.named (CText.bytes "Encapsulated") r.first.text = false := by
    have hlow : (r.first.text.take 12).map lower ≠ (CText.bytes "Encapsulated").map lower := by
      intro h
      have hhead := congrArg head? h
      have hnot : some (lower 73) ≠ ((CText.bytes "Encapsulated").map lower).head? := by decide
      exact hnot hhead
    unfold Headers.named
    rw [Bool.and_eq_false_iff, decide_eq_false_iff_not, decide_eq_false_iff_not]
    exact .inr hlow
  have henc : Headers.named (CText.bytes "Encapsulated") r.encapsLine = true := by
    have hlen : (CText.bytes "Encapsulated").length = 12 := by decide
    have hcolon : ∃ s, (encapsulatedLine r.entities).drop 12 = 58 :: s := by
      unfold encapsulatedLine
      split
      all_goals exact ⟨_, rfl⟩
    obtain ⟨s, hs⟩ := hcolon
    have hspell : r.name.map lower = (CText.bytes "Encapsulated").map lower :=
      r.name_spelled.trans (by decide)
    unfold Headers.named encapsLine
    rw [hlen, hs, ← r.name_length, take_left, hspell]
    simp
  unfold lines
  rw [find?_cons_of_neg (by simp [hfirst]), find?_append, find?_eq_none.mpr, find?_cons_of_pos henc]
  · rfl
  · intro l hl
    simp [(r.before_lines l hl).2]

/-- The text behind `Encapsulated:`. -/
theorem encapsLine_value : r.encapsLine.drop 13 = (encapsulatedLine r.entities).drop 13 := by
  unfold encapsLine
  rw [drop_append, r.name_length, drop_eq_nil_of_le (by rw [r.name_length]; omega),
    nil_append, drop_drop]

/-- What the client library reads from the head of a response. -/
theorem read_head {c : Client} (hhead : c.head = linesText r.lines) (hes : c.req.entities = []) :
    Client.scanStatus c.head = some r.first.status ∧
    ∃ c', c.unpackResponse.responseEntities = some c' ∧
      c'.req.entities.map Entity.entry = r.entities.map Entity.entry ∧
      c'.status = c.status ∧ c'.readSide = { c.readSide with
        head := [], responseHeader := c'.req.responseHeader } := by
  refine ⟨?_, ?_⟩
  · rw [hhead, lines, linesText_cons, append_assoc]
    exact r.first.scanStatus_text _
  · obtain ⟨size, hunpack⟩ := unpack_linesText c.req.responseHeader r.lines_ne r.textLine_lines
    have htexts : c.unpackResponse.req.responseHeader.texts = r.lines := by
      unfold Client.unpackResponse
      rw [hhead, hunpack]
      simp [Headers.texts, Function.comp_def]
    have hsearch : c.unpackResponse.searchResponse (CText.bytes "Encapsulated") =
        some r.encapsLine := by
      unfold Client.searchResponse
      rw [htexts]
      exact r.find_encapsulated
    obtain ⟨req, hreq, hentries⟩ := processEncapsulated_line r.entities_ne
      (by rw [r.entities_short]; exact r.plain_entities) c.unpackResponse.req hes
    rw [r.entities_short] at hentries
    have honly : c.unpackResponse.req.EntitiesOnly
        (processEncapsulated c.unpackResponse.req ((encapsulatedLine r.entities).drop 13)).2 :=
      encapsLoop_entitiesOnly _ _ _ _ _
    have hrest : req.rd = c.req.rd ∧ req.allow204 = c.req.allow204 := by
      rw [hreq] at honly
      have hsame : req = { c.unpackResponse.req with
        entities := req.entities, trash := req.trash, hasbody := req.hasbody } := honly
      rw [hsame]
      exact ⟨rfl, rfl⟩
    refine ⟨{ c.unpackResponse with req := req }, ?_, hentries, rfl, ?_⟩
    · unfold Client.responseEntities
      rw [hsearch, Option.map_some, r.encapsLine_value, hreq]
    · unfold Client.readSide
      rw [hrest.1, hrest.2]
      rfl

end Response

end CIcap
