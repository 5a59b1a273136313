import CIcap.Header.Unpack

/-! # Blocks of headers

A block of header lines, each ended by `\r\n` or a bare `\n` and closed by a blank line, is read
into the list of its lines. What is packed from such a list, edited or not, has one blank line, at
its end.
-/

namespace CIcap

open CText Segments HeaderBuf List
open Headers (lineBytes lineEnd segs closeLast cleanByte cleanLine)

/-- The bytes have been read into the list and not been scanned yet. -/
structure Loaded (h : HeaderBuf) (block : List UInt8) : Prop where
  buf : block <+: h.buf
  bufused : h.bufused = block.length
  size : 0 < h.size
  raw : h.packed = true ∨ h.headers = []

/-- The lines of a block. -/
structure BlockLines (ls : List HeaderLine) : Prop where
  ne : ls ≠ []
  text : ∀ l ∈ ls, HeaderText l.text
  next : ∀ l ∈ ls.tail, Headers.NextLine l

/-- The bytes of a block; the blank line is `\r\n` or `\n` too. -/
def blockBytes (ls : List HeaderLine) (blank : Bool) : List UInt8 :=
  (ls.map (lineBytes true)).flatten ++ lineEnd true blank

theorem blockBody_concat (ls : List HeaderLine) (l : HeaderLine) :
    Headers.blockBody (ls ++ [l]) = (ls.map (lineBytes true)).flatten ++ l.text := by
  induction ls with
  | nil => simp [Headers.blockBody]
  | cons k ls ih =>
    have hne : ls ++ [l] ≠ [] := by simp
    obtain ⟨m, ms, hms⟩ := exists_cons_of_ne_nil hne
    rw [cons_append, hms, Headers.blockBody, ← hms, ih]
    all_goals simp

/-- The end of a block: what `ebuf` moves over, the byte it starts at and what is left behind it. -/
theorem block_end (cr blank : Bool) :
    ∃ mid y x e ends, lineEnd true cr ++ lineEnd true blank = mid ++ [y, x] ∧
      lineEnd true cr ++ lineEnd true blank = e :: ends ∧
      (∀ b ∈ mid, isEol b = true) ∧ isEol y = true ∧ (∀ b ∈ ends, endByte b = true) ∧ ends.length ≤ 3 := by
  cases cr <;> cases blank
  · exact ⟨[], 10, 10, 10, [10], by decide⟩
  · exact ⟨[10], 13, 10, 10, [13, 10], by decide⟩
  · exact ⟨[13], 10, 10, 13, [10, 10], by decide⟩
  · exact ⟨[13, 10], 13, 10, 13, [10, 13, 10], by decide⟩

variable {h : HeaderBuf} {ls : List HeaderLine} {t : List UInt8} {lines : List (List UInt8)}

/-- **A block is read into the list of its lines.** -/
theorem unpack_block {blank : Bool} (hls : BlockLines ls)
    (hload : Loaded h (blockBytes ls blank)) {a : Allocator} (ha : ¬ a.Fails) :
    ∃ h' size, h.unpack a = .ok (.ec100, h') ∧
      Holds h' { lines := closeLast (ls.map cleanLine), size := size, packed := false } := by
  obtain ⟨init, last, hlast⟩ := (eq_nil_or_concat ls).resolve_left hls.ne
  rw [concat_eq_append] at hlast
  obtain ⟨mid, y, x, e, ends, hE, hE', hmid, hy, hends, hshort⟩ := block_end last.crlf blank
  have htext : HeaderText last.text := hls.text last (by simp [hlast])
  -- the block is `body`, the bytes of the lines, and what follows the last one
  generalize hbody : Headers.blockBody ls = body
  have hbodyEq : body = (init.map (lineBytes true)).flatten ++ last.text := by
    rw [← hbody, hlast, blockBody_concat]
  have hblock : blockBytes ls blank = body ++ (lineEnd true last.crlf ++ lineEnd true blank) := by
    rw [blockBytes, hlast, hbodyEq]
    simp [lineBytes]
  have hbodyNe : body ≠ [] := by
    rw [hbodyEq]
    simp [htext.ne]
  have hbodyLast : ∀ b ∈ body.getLast?, isEol b = false := by
    intro b hb
    rw [hbodyEq, getLast?_append_of_ne_nil _ htext.ne] at hb
    obtain ⟨h13, h10⟩ := htext.rest.getLast b hb
    simp [isEol, h13, h10]
  obtain ⟨spare, hspare⟩ := hload.buf
  rw [hblock] at hspare
  have hused := hload.bufused
  rw [hblock] at hused
  have hbufMid : h.buf = body ++ mid ++ y :: (x :: spare) := by
    rw [← hspare, hE]
    simp
  have hbufEnd : h.buf = body ++ e :: (ends ++ spare) := by
    rw [← hspare, hE']
    simp
  have hpos : h.bufused - 2 = (body ++ mid).length := by
    rw [hused, hE]
    simp [← Nat.add_assoc]
  have hlen : h.bufused = body.length + (ends.length + 1) := by
    rw [hused, hE', length_append, length_cons]
  have hbyte : h.byte (h.bufused - 2) = .ok y := by
    rw [hpos, byte_append hbufMid]
  have hstrip : stripEnds h.buf (h.bufused - 2) = body.length := by
    rw [hpos, hbufMid, stripEnds_append hbodyNe hbodyLast hmid]
  have hstore : h.store body.length [0] = .ok { h with buf := body ++ 0 :: (ends ++ spare) } :=
    store_append 0 hbufEnd
  have htwo : ¬ h.bufused < 2 := by
    rw [hused, hE]
    simp only [length_append, length_cons]
    omega
  have hraw : (!h.packed && !(decide (0 < h.bufused) && decide (h.headers = []))) = false := by
    have h0 : 0 < h.bufused := by omega
    rcases hload.raw with hp | hnil
    · simp [hp]
    · simp [h0, hnil]
  -- the loop
  have hat : ScanAt { h with buf := body ++ 0 :: (ends ++ spare), headers := [h.addr] }
      { h with buf := body ++ 0 :: (ends ++ spare), headers := [h.addr] } [] [] body (ends ++ spare) :=
    ⟨rfl, rfl, hload.size, rfl, rfl, rfl⟩
  rcases @ScanAt.run a _ _ _ _ _ _ hat body.length body.length (by simp [lineJoin]) le_rfl with
    ⟨h', -, hfails⟩ | ⟨h2, ks, k, hscan, hlines, hat2⟩
  · exact absurd hfails ha
  have hfound : ks = init.map cleanLine ∧ k = ⟨last.text.map cleanByte, true⟩ := by
    obtain ⟨l, ms, hms⟩ := exists_cons_of_ne_nil hls.ne
    have hl : HeaderText l.text := hls.text l (by simp [hms])
    have hscanned := @Headers.scanLines_blockBody l.text hl.rest [] l.crlf ms
      (fun m hm => hls.text m (by simp [hms, hm])) (fun m hm => hls.next m (by simpa [hms] using hm))
    have hsame : (⟨[] ++ l.text.map cleanByte, l.crlf⟩ : HeaderLine) = cleanLine l := rfl
    rw [hsame, ← map_cons, ← hms, hbody] at hscanned
    rw [nil_append, hscanned, hlast, map_append, map_singleton, closeLast_concat] at hlines
    exact ⟨(append_inj' hlines rfl).1.symm, (singleton_inj.mp (append_inj' hlines rfl).2).symm⟩
  obtain ⟨hks, hk⟩ := hfound
  have hsameLen : (lineJoin ks ++ k.text).length = body.length := by
    rw [hks, hk, hbodyEq, lineJoin, length_append, length_append, length_flatten,
      length_flatten, map_map, map_map, map_map, length_map]
    congr 2
    apply map_congr_left
    intro l _
    simp only [Function.comp, lineBytes, cleanLine, length_append, length_map]
    cases l.crlf <;> rfl
  obtain ⟨hspaced, hroom4⟩ := @checkSpace_zero { h2 with packed := false } hat2.room a
  have hindex4 := hspaced.index hat2.index
  obtain ⟨⟨more, hbuf4⟩, hused4, hpacked4, -, hsize4⟩ := hspaced.frame
  generalize hspace : (HeaderBuf.checkSpace a { h2 with packed := false } 0 0).2 = h4 at *
  have hbuf4' : h4.buf = lineJoin ks ++ k.text ++ (0 :: ends ++ (spare ++ more)) := by
    rw [hbuf4]
    rw [hat2.buf]
    simp
  have hused4' : h4.bufused = (lineJoin ks ++ k.text).length + (ends.length + 1) := by
    rw [hused4, hsameLen, ← hlen]
    exact hat2.bufused
  have hmore : 4 ≤ (spare ++ more).length := by
    have hlarge := hroom4 ha
    rw [hbuf4', @length_append _ (lineJoin ks ++ k.text), @length_append _ (0 :: ends), length_cons] at hlarge
    omega
  have hheld : ∀ l ∈ ks, HeldText l.text := by
    intro l hl
    rw [hks] at hl
    obtain ⟨m, hm, rfl⟩ := mem_map.mp hl
    exact (hls.text m (by simp [hlast, hm])).held
  have hroomk : h4.headers.length ≤ h4.size := by
    rw [hindex4, length_map, hsize4]
    have := hat2.room
    rwa [hat2.index, length_map] at this
  obtain ⟨h', hterm, hfinal⟩ := close_scanned hbuf4' hused4' hindex4 hroomk (hpacked4.trans rfl) hheld
    (by rw [hk]; exact htext.held) hends hshort hmore
  refine ⟨h', h4.size, ?_, ?_⟩
  · unfold HeaderBuf.unpack
    dsimp only
    rw [hraw, if_neg htwo, hbyte]
    show (if (!isEol y) = true then _ else _) = _
    rw [hy, hstrip, hstore]
    have hpush : ({ h with buf := body ++ 0 :: (ends ++ spare), headers := [] } : HeaderBuf).pushHeaders
        [h.addr] = .ok { h with buf := body ++ 0 :: (ends ++ spare), headers := [h.addr] } :=
      if_pos hload.size
    show (HeaderBuf.pushHeaders _ [h.addr] >>= _) = _
    rw [hpush]
    have hscan' : scan a body.length body.length
        { h with buf := body ++ 0 :: (ends ++ spare), headers := [h.addr] } 0 = (true, h2) := hscan
    dsimp only [bind, Except.bind]
    rw [hscan']
    show ((({ h2 with packed := false } : HeaderBuf).checkSpace a 0 0).2.assertTerminate >>= _) = _
    rw [hspace, hterm]
    rfl
  · rw [hlast, map_append, map_singleton, closeLast_concat]
    have hcleaned : (⟨k.text, true⟩ : HeaderLine) = { cleanLine last with crlf := true } := by
      rw [hk]
      rfl
    rw [← hks, ← hcleaned]
    exact hfinal

/-! ## The round trip -/

theorem cstr_append (ht : 0 ∉ t) (rest : List UInt8) : cstr (t ++ 0 :: rest) = t := by
  unfold cstr
  rw [takeWhile_append_of_pos (fun b hb => by simpa using ne_of_mem_of_not_mem hb ht)]
  simp

theorem Holds.texts {hs : Headers} (hh : Holds h hs) (hp : hs.packed = false) :
    h.texts = hs.texts := by
  apply ext_getElem?
  intro i
  unfold HeaderBuf.texts Headers.texts
  rw [getElem?_map, getElem?_map, hh.index, getElem?_map]
  by_cases hi : i < hs.lines.length
  · have hne : hs.lines ≠ [] := ne_nil_of_length_pos (by omega)
    obtain ⟨spare, hspare⟩ := hh.buf
    rw [Headers.buf_eq_segs hne, append_assoc] at hspare
    have hsegs : i < hs.segs.length := by simpa [segs] using hi
    obtain ⟨p, hp', hdrop⟩ := drop_start hsegs (crlf ++ spare)
    have htext := hh.text hs.lines[i] (getElem_mem hi)
    obtain ⟨rest, hrest⟩ : ∃ rest, h.buf.drop p = hs.lines[i].text ++ 0 :: rest := by
      rw [← hspare, hdrop, drop_eq_getElem_cons hsegs]
      have hseg : hs.segs[i] = hs.lines[i].text ++ lineEnd false hs.lines[i].crlf := by
        simp [segs, lineBytes, hp]
      rw [hseg]
      cases hs.lines[i].crlf <;> simp [lineEnd]
    rw [hp', getElem?_eq_getElem hi]
    simp only [Option.map_some, Nat.add_sub_cancel_left]
    rw [hrest, cstr_append htext.nul]
  · rw [getElem?_eq_none (by simpa [segs] using hi), getElem?_eq_none (by omega)]
    rfl

theorem cleanLine_of_not_mem {l : HeaderLine} (h : 0 ∉ l.text) : cleanLine l = l := by
  have hmap : l.text.map cleanByte = l.text := by
    conv_rhs => rw [← map_id l.text]
    apply map_congr_left
    intro b hb
    exact if_neg (ne_of_mem_of_not_mem hb h)
  rw [cleanLine, hmap]

/-- Lines with the same kind of line end. -/
def endedLines (cr : Bool) (lines : List (List UInt8)) : List HeaderLine := lines.map (⟨·, cr⟩)

theorem blockLines_ended (cr : Bool) (hne : lines ≠ []) (htext : ∀ l ∈ lines, HeaderText l ∧ 0 ∉ l)
    (hnext : ∀ l ∈ lines.tail, ∀ b ∈ l.head?, b ≠ 32 ∧ b ≠ 9) : BlockLines (endedLines cr lines) := by
  refine ⟨by simpa [endedLines] using hne, ?_, ?_⟩
  · intro l hl
    obtain ⟨t, ht, rfl⟩ := mem_map.mp hl
    exact (htext t ht).1
  · intro l hl
    rw [endedLines, ← map_tail] at hl
    obtain ⟨t, ht, rfl⟩ := mem_map.mp hl
    intro b hb
    obtain ⟨h32, h9⟩ := hnext t ht b hb
    refine ⟨h32, h9, ?_⟩
    rintro rfl
    exact (htext t (mem_of_mem_tail ht)).2 (mem_of_mem_head? hb)

theorem cleanLine_ended (cr : Bool) (hnul : ∀ l ∈ lines, 0 ∉ l) :
    (endedLines cr lines).map cleanLine = endedLines cr lines := by
  conv_rhs => rw [← map_id (endedLines cr lines)]
  apply map_congr_left
  intro l hl
  obtain ⟨t, ht, rfl⟩ := mem_map.mp hl
  exact cleanLine_of_not_mem (hnul t ht)

theorem closeLast_cleaned_texts (cr : Bool) (hnul : ∀ l ∈ lines, 0 ∉ l) :
    (closeLast ((endedLines cr lines).map cleanLine)).map (·.text) = lines := by
  rw [cleanLine_ended cr hnul]
  rcases eq_nil_or_concat lines with rfl | ⟨init, last, rfl⟩
  · rfl
  · rw [concat_eq_append, endedLines, map_append, map_singleton, closeLast_concat]
    simp [Function.comp_def]

/-- **The round trip of a block.** A block of nonempty lines without a zero, each ended by `\r\n`
and perhaps folded, closed by a blank line, is read into the list of these lines, and packing the
list gives the block again. With bare line feeds the list is the same. -/
theorem unpack_pack_round_trip (lines : List (List UInt8)) (hne : lines ≠ [])
    (htext : ∀ l ∈ lines, HeaderText l ∧ 0 ∉ l)
    (hnext : ∀ l ∈ lines.tail, ∀ b ∈ l.head?, b ≠ 32 ∧ b ≠ 9) (a : Allocator) (ha : ¬ a.Fails) :
    (∀ h, Loaded h (lines.flatMap (· ++ [13, 10]) ++ [13, 10]) →
      ∃ h', h.unpack a = .ok (.ec100, h') ∧ h'.texts = lines ∧ ∀ a', ∃ h'', h'.pack a' = .ok h'' ∧
          h''.buf.take h''.bufused = lines.flatMap (· ++ [13, 10]) ++ [13, 10]) ∧
    (∀ h, Loaded h (lines.flatMap (· ++ [10]) ++ [10]) →
      ∃ h', h.unpack a = .ok (.ec100, h') ∧ h'.texts = lines) := by
  have hnul : ∀ l ∈ lines, 0 ∉ l := fun l hl => (htext l hl).2
  have hbytes : ∀ cr, blockBytes (endedLines cr lines) cr =
      lines.flatMap (· ++ lineEnd true cr) ++ lineEnd true cr := by
    intro cr
    rw [blockBytes, endedLines, map_map]
    rfl
  have hread : ∀ cr h, Loaded h (lines.flatMap (· ++ lineEnd true cr) ++ lineEnd true cr) →
      ∃ h' size, h.unpack a = .ok (.ec100, h') ∧ h'.texts = lines ∧
        Holds h' { lines := closeLast ((endedLines cr lines).map cleanLine), size := size } := by
    intro cr h hload
    rw [← hbytes cr] at hload
    obtain ⟨h', size, hunpack, hh⟩ := unpack_block (blockLines_ended cr hne htext hnext) hload ha
    refine ⟨h', size, hunpack, ?_, hh⟩
    rw [hh.texts rfl]
    exact closeLast_cleaned_texts cr hnul
  constructor
  · intro h hload
    obtain ⟨h', size, hunpack, htexts, hh⟩ := hread true h hload
    refine ⟨h', hunpack, htexts, fun a' => ?_⟩
    obtain ⟨h'', hpack, size', -, hh''⟩ := hh.pack a'
    refine ⟨h'', hpack, ?_⟩
    have hclosed : closeLast ((endedLines true lines).map cleanLine) = endedLines true lines := by
      rw [cleanLine_ended true hnul]
      apply closeLast_of_closed
      intro l hl
      obtain ⟨t, -, rfl⟩ := mem_map.mp (mem_of_getLast? hl)
      rfl
    have hlines : endedLines true lines ≠ [] := by simpa [endedLines] using hne
    have hsegs := @Headers.buf_eq_segs { lines := endedLines true lines, size := size', packed := true } hlines
    rw [hh''.used, hclosed, Headers.pack, if_neg hlines, hsegs]
    exact hbytes true
  · intro h hload
    obtain ⟨h', size, hunpack, htexts, -⟩ := hread false h hload
    exact ⟨h', hunpack, htexts⟩

/-- A buffer into which a block has been read. -/
def HeaderBuf.ofBlock (block : List UInt8) : HeaderBuf :=
  { addr := 0, buf := block, bufused := block.length, headers := [], size := headerStartSize, packed := false }

theorem loaded_ofBlock (block : List UInt8) : Loaded (.ofBlock block) block :=
  ⟨prefix_rfl, rfl, show 0 < headerStartSize by decide, .inr rfl⟩

theorem Allocator.not_fails : ¬ ({} : Allocator).Fails := by
  rintro (h | ⟨n, h⟩ | ⟨n, h⟩) <;> cases h

theorem unpack_pack_round_trip_folded :
    ∃ h', (HeaderBuf.ofBlock (bytes "a" ++ [13, 10] ++ bytes " b" ++ [13, 10] ++ bytes "c" ++ [13, 10, 13, 10])).unpack
        {} = .ok (.ec100, h') ∧ h'.texts = [bytes "a" ++ [13, 10] ++ bytes " b", bytes "c"] ∧
      ∀ a', ∃ h'', h'.pack a' = .ok h'' ∧ h''.buf.take h''.bufused =
        bytes "a" ++ [13, 10] ++ bytes " b" ++ [13, 10] ++ bytes "c" ++ [13, 10, 13, 10] := by
  refine (unpack_pack_round_trip [bytes "a" ++ [13, 10] ++ bytes " b", bytes "c"] (by decide) ?_ (by decide +kernel)
    {} Allocator.not_fails).1 _ (loaded_ofBlock _)
  intro l hl
  have hc : LineRest (bytes "c") := .byte (by decide) (by decide) .nil
  have hab : LineRest (bytes "a" ++ [13, 10] ++ bytes " b") :=
    .byte (by decide) (by decide) (.fold (.inl rfl) (.byte (by decide) (by decide) .nil))
  rcases mem_pair.mp hl with rfl | rfl
  · exact ⟨⟨by decide, hab, by decide +kernel⟩, by decide⟩
  · exact ⟨⟨by decide, hc, by decide +kernel⟩, by decide⟩

/-! ## Blank lines -/

/-- What stands behind the first blank line; `start` at the start of a line. -/
def afterBlank (start : Bool) : List UInt8 → Option (List UInt8)
  | [] => none
  | b :: rest =>
    if start && b = 10 then some rest
    else if start && b = 13 && rest.head? = some 10 then some (rest.drop 1)
    else afterBlank (b = 10) rest

theorem afterBlank_byte {b : UInt8} (hcr : b ≠ 13) (hlf : b ≠ 10) (start : Bool) (rest : List UInt8) :
    afterBlank start (b :: rest) = afterBlank false rest := by
  simp [afterBlank, hcr, hlf]

theorem afterBlank_lineEnd (cr : Bool) (rest : List UInt8) :
    afterBlank false (lineEnd true cr ++ rest) = afterBlank true rest := by
  cases cr <;> simp [lineEnd, afterBlank]

theorem afterBlank_rest (ht : LineRest t) (rest : List UInt8) :
    afterBlank false (t ++ rest) = afterBlank false rest := by
  have hblank : ∀ {b : UInt8}, b = 32 ∨ b = 9 → b ≠ 13 ∧ b ≠ 10 := by
    rintro b (rfl | rfl) <;> decide
  induction ht with
  | nil => rfl
  | byte hcr hlf _ ih => exact (afterBlank_byte hcr hlf _ _).trans ih
  | @fold b t hb _ ih =>
    obtain ⟨hcr, hlf⟩ := hblank hb
    have heol := afterBlank_lineEnd true (b :: t ++ rest)
    exact heol.trans ((afterBlank_byte hcr hlf _ _).trans ih)
  | @foldLf b t hb _ ih =>
    obtain ⟨hcr, hlf⟩ := hblank hb
    have heol := afterBlank_lineEnd false (b :: t ++ rest)
    exact heol.trans ((afterBlank_byte hcr hlf _ _).trans ih)

theorem afterBlank_line (ht : HeaderText t) (rest : List UInt8) :
    afterBlank true (t ++ rest) = afterBlank false rest := by
  obtain ⟨c, u, rfl⟩ := exists_cons_of_ne_nil ht.ne
  obtain ⟨hcr, hlf⟩ := ht.head c rfl
  have hrest := Headers.lineRest_tail ht.rest hcr hlf
  exact (afterBlank_byte hcr hlf _ _).trans (afterBlank_rest hrest rest)

theorem afterBlank_lines (htext : ∀ l ∈ ls, HeaderText l.text) (rest : List UInt8) :
    afterBlank true ((ls.map (lineBytes true)).flatten ++ rest) = afterBlank true rest := by
  induction ls with
  | nil => rfl
  | cons l ls ih =>
    rw [map_cons, flatten_cons, lineBytes, append_assoc, append_assoc,
      afterBlank_line (htext l (by simp)), afterBlank_lineEnd]
    exact ih ((forall_mem_cons.mp htext).2)

theorem afterBlank_block (htext : ∀ l ∈ ls, HeaderText l.text) (blank : Bool) :
    afterBlank true (blockBytes ls blank) = some [] := by
  rw [blockBytes, afterBlank_lines htext]
  cases blank <;> rfl

theorem HeaderText.clean (ht : HeaderText t) : HeaderText (t.map cleanByte) := by
  have hbyte : ∀ {b : UInt8}, b ≠ 13 → b ≠ 10 → cleanByte b ≠ 13 ∧ cleanByte b ≠ 10 := by
    intro b hcr hlf
    unfold cleanByte
    split
    · decide
    · exact ⟨hcr, hlf⟩
  have hrest : ∀ {u : List UInt8}, LineRest u → LineRest (u.map cleanByte) := by
    intro u hu
    induction hu with
    | nil => exact .nil
    | byte hcr hlf _ ih => exact .byte (hbyte hcr hlf).1 (hbyte hcr hlf).2 ih
    | fold hb _ ih =>
      refine .fold ?_ ih
      rcases hb with rfl | rfl
      · exact .inl rfl
      · exact .inr rfl
    | foldLf hb _ ih =>
      refine .foldLf ?_ ih
      rcases hb with rfl | rfl
      · exact .inl rfl
      · exact .inr rfl
  refine ⟨by simpa using ht.ne, hrest ht.rest, ?_⟩
  intro b hb
  rw [head?_map, Option.mem_def, Option.map_eq_some_iff] at hb
  obtain ⟨c, hc, rfl⟩ := hb
  obtain ⟨hcr, hlf⟩ := ht.head c hc
  exact hbyte hcr hlf

/-! ## Editing a list that was read -/

/-- A change of a list. -/
inductive HeaderEdit where
  | add (line : List UInt8) (a : Allocator)
  | remove (name : List UInt8) (a : Allocator)

/-- The change, for a caller that does not look at its result. -/
def HeaderBuf.edit (h : HeaderBuf) : HeaderEdit → Except Fault HeaderBuf
  | .add line a => do
      let (_, h) ← h.add a line
      return h
  | .remove name a => do
      let (_, h) ← h.remove a name
      return h

/-- A line that is added is a nonempty C string without line ends; a name is a C string. -/
def HeaderEdit.Clean : HeaderEdit → Prop
  | .add line _ => line ≠ [] ∧ ∀ b ∈ line, b ≠ 13 ∧ b ≠ 10 ∧ b ≠ 0
  | .remove name _ => 0 ∉ name

/-- The buffer holds a list, not packed, of lines in which every line end is folded. -/
def HoldsLines (h : HeaderBuf) : Prop :=
  ∃ hs : Headers, Holds h hs ∧ hs.packed = false ∧ ∀ l ∈ hs.lines, HeaderText l.text

theorem lineRest_of_clean (ht : ∀ b ∈ t, b ≠ 13 ∧ b ≠ 10) : LineRest t := by
  induction t with
  | nil => exact .nil
  | cons b t ih =>
    obtain ⟨hcr, hlf⟩ := ht b (by simp)
    exact .byte hcr hlf (ih (forall_mem_cons.mp ht).2)

theorem mem_closeLast_text {l : HeaderLine} (hl : l ∈ closeLast ls) :
    ∃ k ∈ ls, k.text = l.text := by
  rcases eq_nil_or_concat ls with rfl | ⟨init, last, rfl⟩
  · cases hl
  · rw [concat_eq_append, closeLast_concat] at hl
    rcases mem_append.mp hl with hl | hl
    · exact ⟨l, by simp [hl], rfl⟩
    · rw [mem_singleton.mp hl]
      exact ⟨last, by simp, rfl⟩

theorem HoldsLines.edit (hh : HoldsLines h) {e : HeaderEdit} (he : e.Clean) :
    ∃ h', h.edit e = .ok h' ∧ HoldsLines h' := by
  obtain ⟨hs, hheld, hp, htext⟩ := hh
  cases e with
  | add line a =>
    obtain ⟨hne, hclean⟩ := he
    have hnew : HeaderText line := by
      refine ⟨hne, lineRest_of_clean fun b hb => ⟨(hclean b hb).1, (hclean b hb).2.1⟩, fun b hb => ?_⟩
      have hb' := hclean b (mem_of_mem_head? hb)
      exact ⟨hb'.1, hb'.2.1⟩
    obtain ⟨p, h', hadd, ⟨-, -, size, -, hheld'⟩ | ⟨-, -, size, -, hheld'⟩⟩ :=
      hheld.add a (heldText_of_clean hne hclean)
    · refine ⟨h', by rw [HeaderBuf.edit, hadd]; rfl, _, hheld', hp, fun l hl => ?_⟩
      rcases mem_append.mp hl with hl | hl
      · exact htext l hl
      · rw [mem_singleton.mp hl]
        exact hnew
    · exact ⟨h', by rw [HeaderBuf.edit, hadd]; rfl, _, hheld', hp, htext⟩
  | remove name a =>
    obtain ⟨ok, h', hremove, -, size, -, hheld'⟩ := hheld.remove a he
    refine ⟨h', by rw [HeaderBuf.edit, hremove]; rfl, _, hheld', ?_, ?_⟩
    · unfold Headers.remove
      split <;> exact hp
    · intro l hl
      unfold Headers.remove at hl
      split at hl
      · exact htext l hl
      · obtain ⟨k, hk, hkl⟩ := mem_closeLast_text hl
        rw [← hkl]
        exact htext k (mem_of_mem_eraseP hk)

theorem HoldsLines.edits (hh : HoldsLines h) {es : List HeaderEdit}
    (hes : ∀ e ∈ es, e.Clean) : ∃ h', es.foldlM HeaderBuf.edit h = .ok h' ∧ HoldsLines h' := by
  induction es generalizing h with
  | nil => exact ⟨h, rfl, hh⟩
  | cons e es ih =>
    obtain ⟨h1, hedit, hh1⟩ := hh.edit (hes e (by simp))
    obtain ⟨h', hrest, hh'⟩ := ih hh1 ((forall_mem_cons.mp hes).2)
    exact ⟨h', by rw [foldlM_cons, hedit]; exact hrest, hh'⟩

/-- What is packed has no zero and one blank line, at its end. -/
theorem HoldsLines.pack (hh : HoldsLines h) (a : Allocator) :
    ∃ h', h.pack a = .ok h' ∧ 0 ∉ h'.buf.take h'.bufused ∧
      (h'.buf.take h'.bufused = [] ∨ afterBlank true (h'.buf.take h'.bufused) = some []) := by
  obtain ⟨hs, hheld, hp, htext⟩ := hh
  obtain ⟨h', hpack, size, -, hheld'⟩ := hheld.pack a
  refine ⟨h', hpack, ?_⟩
  rw [hheld'.used]
  unfold Headers.pack
  by_cases hne : hs.lines = []
  · rw [if_pos hne, Headers.buf, if_pos hne]
    exact ⟨not_mem_nil, .inl rfl⟩
  have hsegs := @Headers.buf_eq_segs { lines := hs.lines, size := size, packed := true } hne
  rw [if_neg hne, hsegs]
  refine ⟨?_, .inr (afterBlank_block htext true)⟩
  intro h0
  rcases mem_append.mp h0 with h0 | h0
  · obtain ⟨seg, hseg, h0⟩ := mem_flatten.mp h0
    obtain ⟨l, hl, rfl⟩ := mem_map.mp hseg
    rcases mem_append.mp h0 with h0 | h0
    · exact (hheld.text l hl).nul h0
    · have hends : ∀ cr, 0 ∉ lineEnd true cr := by decide
      exact hends l.crlf h0
  · exact absurd h0 (by decide)

/-- The block is made of nonempty lines whose line ends, but for folded ones, are `\r\n` or `\n`,
and of a blank line at its end; no line but the first starts with a zero. -/
def WellFormedBlock (block : List UInt8) : Prop :=
  ∃ ls blank, BlockLines ls ∧ block = blockBytes ls blank

/-- **No header is hidden behind a blank line.** A well-formed block is read into a list of lines
without zeros and with folded line ends only; it has one blank line, at its end; and so has what
is packed after any changes of the list. -/
theorem unpack_edit_pack_one_blank (block : List UInt8) (hblock : WellFormedBlock block) (h : HeaderBuf)
    (hload : Loaded h block) (a : Allocator) (ha : ¬ a.Fails) :
    afterBlank true block = some [] ∧
    ∃ h', h.unpack a = .ok (.ec100, h') ∧ HoldsLines h' ∧ (∀ t ∈ h'.texts, HeaderText t ∧ 0 ∉ t) ∧
      ∀ es : List HeaderEdit, (∀ e ∈ es, e.Clean) → ∀ a',
        ∃ h1 h2, es.foldlM HeaderBuf.edit h' = .ok h1 ∧ h1.pack a' = .ok h2 ∧
          0 ∉ h2.buf.take h2.bufused ∧
          (h2.buf.take h2.bufused = [] ∨ afterBlank true (h2.buf.take h2.bufused) = some []) := by
  obtain ⟨ls, blank, hls, rfl⟩ := hblock
  obtain ⟨h', size, hunpack, hheld⟩ := unpack_block hls hload ha
  have hlines : ∀ l ∈ closeLast (ls.map cleanLine), HeaderText l.text := by
    intro l hl
    obtain ⟨k, hk, hkl⟩ := mem_closeLast_text hl
    obtain ⟨m, hm, rfl⟩ := mem_map.mp hk
    rw [← hkl]
    exact (hls.text m hm).clean
  have hh : HoldsLines h' := ⟨_, hheld, rfl, hlines⟩
  refine ⟨afterBlank_block hls.text blank, h', hunpack, hh, ?_, ?_⟩
  · intro t ht
    rw [hheld.texts rfl] at ht
    obtain ⟨l, hl, rfl⟩ := mem_map.mp ht
    exact ⟨hlines l hl, (hheld.text l hl).nul⟩
  · intro es hes a'
    obtain ⟨h1, hedits, hh1⟩ := hh.edits hes
    obtain ⟨h2, hpack, hnul, hone⟩ := hh1.pack a'
    exact ⟨h1, h2, hedits, hpack, hnul, hone⟩

theorem unpack_edit_pack_one_blank_two :
    afterBlank true (bytes "a: b" ++ [10] ++ bytes "c" ++ [13, 10, 10]) = some [] ∧
    ∃ h', (HeaderBuf.ofBlock (bytes "a: b" ++ [10] ++ bytes "c" ++ [13, 10, 10])).unpack {} =
        .ok (.ec100, h') ∧ HoldsLines h' ∧ (∀ t ∈ h'.texts, HeaderText t ∧ 0 ∉ t) ∧
      ∀ es : List HeaderEdit, (∀ e ∈ es, e.Clean) → ∀ a',
        ∃ h1 h2, es.foldlM HeaderBuf.edit h' = .ok h1 ∧ h1.pack a' = .ok h2 ∧
          0 ∉ h2.buf.take h2.bufused ∧
          (h2.buf.take h2.bufused = [] ∨ afterBlank true (h2.buf.take h2.bufused) = some []) := by
  refine unpack_edit_pack_one_blank _ ⟨[⟨bytes "a: b", false⟩, ⟨bytes "c", true⟩], false, ?_, rfl⟩ _
    (loaded_ofBlock _) {} Allocator.not_fails
  refine ⟨by decide, ?_, ?_⟩
  · intro l hl
    rcases mem_pair.mp hl with rfl | rfl
    all_goals exact ⟨by decide, lineRest_of_clean (by decide), by decide +kernel⟩
  · intro l hl
    rw [mem_singleton.mp hl]
    unfold Headers.NextLine
    decide +kernel

/-- A block with a blank line in front of a header is accepted, and packed with it. -/
theorem unpack_inner_blank_line :
    ∃ h' h'', ({ HeaderBuf.ofBlock (bytes "a" ++ [13, 10, 13, 10] ++ bytes "b" ++ [13, 10, 13, 10]) with
        buf := bytes "a" ++ [13, 10, 13, 10] ++ bytes "b" ++ [13, 10, 13, 10] ++ [0, 0, 0, 0] } :
          HeaderBuf).unpack {} = .ok (.ec100, h') ∧ h'.pack {} = .ok h'' ∧
      h''.buf.take h''.bufused = bytes "a" ++ [13, 10, 13, 10] ++ bytes "b" ++ [13, 10, 13, 10] ∧
      afterBlank true (h''.buf.take h''.bufused) = some (bytes "b" ++ [13, 10, 13, 10]) :=
  ⟨_, _, rfl, rfl, rfl, rfl⟩

end CIcap
