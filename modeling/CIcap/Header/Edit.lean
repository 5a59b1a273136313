import CIcap.Header.Refine

/-! # Removing and packing headers

`ci_headers_remove` compacts the buffer and moves the index with it; `ci_headers_pack` puts the
line ends back.
-/

namespace CIcap

open CText Segments HeaderBuf List
open Headers (lineBytes lineEnd named segs buf_eq_segs closeLast)

/-! ## Removing -/

variable {b : UInt8} {name t before after : List UInt8} {h : HeaderBuf}

theorem lower_eq_zero (h : lower b = 0) : b = 0 := by
  unfold lower at h
  split at h
  · rename_i hb
    have h2 : b.toNat ≤ 90 := UInt8.le_iff_toNat_le.mp hb.2
    have h3 := congrArg UInt8.toNat h
    rw [UInt8.toNat_add] at h3
    have h4 : (32 : UInt8).toNat = 32 := rfl
    have h5 : (0 : UInt8).toNat = 0 := rfl
    omega
  · exact h

/-- The comparison of a name with a text that ends with a zero. -/
theorem strncasecmp_iff (hname : 0 ∉ name) (ht : 0 ∉ t) (rest : List UInt8) :
    strncasecmp (t ++ 0 :: rest) name name.length = true ↔
      name.length ≤ t.length ∧ (t.take name.length).map lower = name.map lower := by
  induction name generalizing t with
  | nil => simp [strncasecmp]
  | cons c name ih =>
    have hc : c ≠ 0 := fun h => hname (by simp [h])
    have hname' : 0 ∉ name := fun h => hname (mem_cons_of_mem _ h)
    cases t with
    | nil =>
      have hlow : lower 0 ≠ lower c := fun h => hc (lower_eq_zero (h.symm.trans (by decide)))
      simp [strncasecmp, hlow]
    | cons b t =>
      have hb : b ≠ 0 := fun h => ht (by simp [h])
      have ht' : 0 ∉ t := fun h => ht (mem_cons_of_mem _ h)
      have hrest := ih hname' ht'
      have hstep : strncasecmp (b :: t ++ 0 :: rest) (c :: name) (name.length + 1) = true ↔
          lower b = lower c ∧ strncasecmp (t ++ 0 :: rest) name name.length = true := by
        simp [strncasecmp, hb]
      rw [length_cons, take_succ_cons, map_cons, map_cons, cons.injEq, length_cons, Nat.add_le_add_iff_right]
      tauto

/-- The test of `ci_headers_remove` on a header. -/
theorem named_iff (hname : 0 ∉ name) (ht : 0 ∉ t) (rest : List UInt8) :
    ((t ++ 0 :: rest)[name.length]? = some 58 ∧
        strncasecmp (t ++ 0 :: rest) name name.length = true) ↔ named name t = true := by
  rw [strncasecmp_iff hname ht, named, Bool.and_eq_true, head?_drop]
  by_cases hlt : name.length < t.length
  · rw [getElem?_append_left hlt]
    simp [hlt.le]
  constructor
  · rintro ⟨hcolon, hle, -⟩
    have heq : name.length = t.length := by omega
    rw [heq] at hcolon
    simp at hcolon
  · rintro ⟨hcolon, -⟩
    rw [getElem?_eq_none (by omega)] at hcolon
    cases hcolon

theorem Headers.length_lt_of_named (h : named name t = true) : name.length < t.length := by
  rw [named, Bool.and_eq_true, head?_drop] at h
  by_contra hle
  rw [getElem?_eq_none (by omega)] at h
  cases h.1

theorem closeLast_concat (ls : List HeaderLine) (l : HeaderLine) :
    closeLast (ls ++ [l]) = ls ++ [{ l with crlf := true }] := by
  induction ls with
  | nil => rfl
  | cons k ls ih =>
    cases ls with
    | nil => rfl
    | cons m ls => exact congrArg (k :: ·) ih

theorem closeLast_of_closed {ls : List HeaderLine} (h : ∀ l ∈ ls.getLast?, l.crlf = true) :
    closeLast ls = ls := by
  rcases eq_nil_or_concat ls with rfl | ⟨ks, l, rfl⟩
  · rfl
  · have hl : l.crlf = true := h l (by simp)
    rw [concat_eq_append, closeLast_concat, ← hl]

namespace Holds

variable {h : HeaderBuf} {hs : Headers}

theorem buf_split (hh : Holds h hs) (hp : hs.packed = false) {ls rs : List HeaderLine}
    (hls : hs.lines = ls ++ rs) (hne : rs ≠ []) :
    ∃ spare, spare ≠ [] ∧ h.buf = (ls.map (lineBytes false)).flatten ++
      ((rs.map (lineBytes false)).flatten ++ crlf ++ spare) := by
  obtain ⟨spare, hspare⟩ := hh.buf
  have hlines : hs.lines ≠ [] := by simp [hls, hne]
  refine ⟨spare, ?_, ?_⟩
  · rintro rfl
    have := hh.spare
    rw [← hspare, append_nil] at this
    omega
  · rw [← hspare, buf_eq_segs hlines, segs, hls, hp]
    simp

theorem bufused_split (hh : Holds h hs) (hp : hs.packed = false) {ls rs : List HeaderLine}
    (hls : hs.lines = ls ++ rs) (hne : rs ≠ []) :
    h.bufused = (ls.map (lineBytes false)).flatten.length +
      ((rs.map (lineBytes false)).flatten.length + 2) := by
  have hlines : hs.lines ≠ [] := by simp [hls, hne]
  rw [hh.bufused, buf_eq_segs hlines, segs, hls, hp]
  simp

/-- The search finds the first line with the name. -/
theorem findHeader (hh : Holds h hs) (hp : hs.packed = false) {name : List UInt8} (hname : 0 ∉ name)
    {ls rs : List HeaderLine} (hls : hs.lines = ls ++ rs) :
    h.findHeader name ((starts (ls.map (lineBytes false)).flatten.length
        (rs.map (lineBytes false))).map (h.addr + ·)) ls.length =
      .ok ((rs.findIdx? (fun l => named name l.text)).map (· + ls.length)) := by
  induction rs generalizing ls with
  | nil => rfl
  | cons r rs ih =>
    obtain ⟨spare, hspare, hbuf⟩ := hh.buf_split hp hls (by simp)
    have hused := hh.bufused_split hp hls (by simp)
    have hnext := @ih (ls ++ [r]) (by simp [hls])
    have hlen : ((ls ++ [r]).map (lineBytes false)).flatten.length =
        (ls.map (lineBytes false)).flatten.length + (lineBytes false r).length := by
      simp
    rw [hlen] at hnext
    generalize hpos : (ls.map (lineBytes false)).flatten.length = pos at *
    have htext := hh.text r (by simp [hls])
    obtain ⟨rest, hrest⟩ : ∃ rest, h.buf.drop pos = r.text ++ 0 :: rest := by
      rw [hbuf, ← hpos]
      cases hcr : r.crlf <;> simp [lineBytes, lineEnd, hcr]
    have hnamed := named_iff hname htext.nul rest
    rw [← hrest, getElem?_drop] at hnamed
    rw [map_cons, starts, map_cons, HeaderBuf.findHeader, Nat.add_sub_cancel_left]
    by_cases hend : h.bufused < pos + name.length
    · -- the name would reach behind the buffer, from here and from every later header
      have hnone : (r :: rs).findIdx? (fun l => named name l.text) = none := by
        rw [findIdx?_eq_none_iff]
        intro l hl
        rw [← Bool.not_eq_true]
        intro hnm
        have hlt := Headers.length_lt_of_named hnm
        have hsub := (sublist_flatten_of_mem (mem_map_of_mem (f := lineBytes false) hl)).length_le
        rw [lineBytes, length_append] at hsub
        omega
      rw [if_pos hend, hnone]
      rfl
    rw [if_neg hend]
    obtain ⟨b, hb⟩ : ∃ b, h.buf[pos + name.length]? = some b := by
      have := hh.spare
      rw [← hh.bufused] at this
      exact ⟨_, getElem?_eq_getElem (show pos + name.length < h.buf.length by omega)⟩
    rw [hb] at hnamed
    rw [HeaderBuf.byte, hb, findIdx?_cons]
    have hskip : (named name r.text = false) → h.findHeader name (map (fun x => h.addr + x)
          (starts (pos + (lineBytes false r).length) (map (lineBytes false) rs)))
          (ls.length + 1) = .ok (Option.map (· + ls.length) (if named name r.text = true
            then some 0 else Option.map (fun i => i + 1)
              (findIdx? (fun l => named name l.text) rs))) := by
      intro hno
      rw [length_append, length_singleton] at hnext
      rw [hnext, if_neg (by rw [hno]; decide), Option.map_map]
      congr 3
      funext i
      simp only [Function.comp]
      omega
    show (if b ≠ 58 then _ else if strncasecmp (h.buf.drop pos) name name.length = true then _ else _) = _
    by_cases hcolon : b = 58
    · rw [if_neg (not_not.mpr hcolon)]
      by_cases hcmp : strncasecmp (h.buf.drop pos) name name.length = true
      · rw [if_pos hcmp, if_pos (hnamed.mp ⟨by rw [hcolon], hcmp⟩), Option.map_some, Nat.zero_add]
        rfl
      · rw [if_neg hcmp]
        exact hskip (by
          rw [← Bool.not_eq_true]
          exact fun hnm => hcmp (hnamed.mpr hnm).2)
    · rw [if_pos hcolon]
      refine hskip ?_
      rw [← Bool.not_eq_true]
      intro hnm
      exact hcolon (Option.some.inj (hnamed.mpr hnm).1)

variable {ls : List HeaderLine}

variable {rs : List HeaderLine}

theorem index_split (hh : Holds h hs) (hp : hs.packed = false) (hls : hs.lines = ls ++ rs) :
    h.headers = (starts 0 (ls.map (lineBytes false))).map (h.addr + ·) ++
      (starts (ls.map (lineBytes false)).flatten.length
        (rs.map (lineBytes false))).map (h.addr + ·) := by
  rw [hh.index, segs, hls, hp, map_append, starts_append, map_append, Nat.zero_add]

theorem text_of_sub (hh : Holds h hs) (hls : ls ⊆ hs.lines) :
    ∀ l ∈ ls, HeldText l.text := fun l hl => hh.text l (hls hl)

variable {l : HeaderLine}

theorem removeInner (hh : Holds h hs) (hp : hs.packed = false)
    (hls : hs.lines = ls ++ l :: rs) (hne : rs ≠ []) :
    ∃ p q ps h', h.headers.drop ls.length = p :: q :: ps ∧
      h.removeInner ls.length p q = .ok h' ∧ Holds h' { hs with lines := ls ++ rs } := by
  obtain ⟨spare, hspare, hsplit⟩ := hh.buf_split hp hls (by simp)
  have hused := hh.bufused_split hp hls (by simp)
  have hindex := hh.index_split hp hls
  obtain ⟨r, rs', hrs⟩ := exists_cons_of_ne_nil hne
  have hnew : ({ hs with lines := ls ++ rs } : Headers).buf = (ls.map (lineBytes false)).flatten ++
        ((rs.map (lineBytes false)).flatten ++ crlf) := by
    rw [buf_eq_segs (by simp [hne]), segs, hp]
    simp
  rw [map_cons] at hsplit hused
  rw [map_cons] at hindex
  have hstarts : ((starts 0 (ls.map (lineBytes false))).map (h.addr + ·)).length = ls.length := by
    simp
  generalize hfirst : (ls.map (lineBytes false)).flatten = first at *
  generalize hline : lineBytes false l = line at *
  have hbuf : h.buf = first ++ (line ++ ((rs.map (lineBytes false)).flatten ++ crlf ++ spare)) := by
    rw [hsplit]
    simp
  have hlast : h.bufused = first.length + (line.length +
      ((rs.map (lineBytes false)).flatten ++ crlf).length) := by
    rw [hused]
    simp [Nat.add_assoc]
  have hpos : 0 < ((rs.map (lineBytes false)).flatten ++ crlf).length := by simp
  have hdrop : h.headers.drop ls.length = (h.addr + first.length) ::
      (starts (first.length + line.length) (rs.map (lineBytes false))).map (h.addr + ·) := by
    rw [hindex, ← hstarts, drop_left]
    rfl
  have htake : h.headers.take ls.length =
      (starts 0 (ls.map (lineBytes false))).map (h.addr + ·) := by
    rw [hindex, ← hstarts, take_left]
  generalize hdata : (rs.map (lineBytes false)).flatten ++ crlf = data at *
  have hmoved : (h.buf.drop (first.length + line.length)).take data.length = data := by
    rw [hbuf, ← drop_drop, drop_left, drop_left, take_left]
  have hlen : h.buf.length = first.length + (line.length + (data.length + spare.length)) := by
    rw [hbuf]
    simp only [length_append]
  have hprefix : h.buf.take first.length = first := by rw [hbuf, take_left]
  have hindex' : ((h.headers.drop (ls.length + 1)).map (· - line.length)) =
      (starts first.length (rs.map (lineBytes false))).map (h.addr + ·) := by
    rw [← drop_drop, hdrop, drop_one, tail_cons, Nat.add_comm, starts_add, map_map, map_map]
    apply map_congr_left
    simp only [Function.comp]
    omega
  have hstore : h.store first.length data = .ok { h with buf := write h.buf first.length data } :=
    store_of_le (by omega)
  have hqs : (starts (first.length + line.length) (rs.map (lineBytes false))).map (h.addr + ·) =
      (h.addr + (first.length + line.length)) ::
        (starts (first.length + line.length + (lineBytes false r).length)
          (rs'.map (lineBytes false))).map (h.addr + ·) := by
    rw [hrs]
    rfl
  rw [hqs] at hdrop
  refine ⟨_, _, _, { h with
    buf := write h.buf first.length data
    bufused := h.bufused - line.length
    headers := h.headers.take ls.length ++ (h.headers.drop (ls.length + 1)).map (· - line.length) },
    hdrop, ?_, ?_⟩
  · unfold HeaderBuf.removeInner
    have hcur : h.addr + (first.length + line.length) - (h.addr + first.length) = line.length := by omega
    have hrestLen : h.bufused - first.length - line.length = data.length := by omega
    dsimp only
    rw [hcur, Nat.add_sub_cancel_left, Nat.add_sub_cancel_left, hrestLen,
      assert_of_true (decide_eq_true hpos), hmoved]
    rw [hstore]
    rfl
  · refine ⟨?_, ?_, ?_, ?_, hh.size, ?_, hh.packed, ?_, ?_⟩
    · rw [hnew, write, hprefix]
      exact prefix_append _ _
    · rw [hnew, length_append]
      dsimp only
      omega
    · have hsp : 0 < spare.length := length_pos_iff.mpr hspare
      rw [hnew, length_append, length_write (by omega)]
      omega
    · rw [htake, hindex', segs, hp, map_append, starts_append, map_append, hfirst, Nat.zero_add]
    · have := hh.room
      rw [hls] at this
      simp only [length_append, length_cons] at *
      omega
    · refine hh.text_of_sub ?_
      rw [hls]
      simp
    · have hl := hh.last
      rw [hls, getLast?_append_of_ne_nil _ (by simp), getLast?_cons_of_ne_nil hne] at hl
      rwa [getLast?_append_of_ne_nil _ hne]

/-- Lines with a blank line behind them are closed by `headers_terminate`, whatever the end of the
last one is. -/
theorem reclose {ls : List HeaderLine} {tail : List UInt8} (htail : 2 ≤ tail.length)
    (hbuf : h.buf = (ls.map (lineBytes false)).flatten ++ (crlf ++ tail))
    (hused : h.bufused = (ls.map (lineBytes false)).flatten.length + 2)
    (hindex : h.headers = (starts 0 (ls.map (lineBytes false))).map (h.addr + ·))
    (hroom : ls.length ≤ h.size) (hpacked : h.packed = false) (htext : ∀ l ∈ ls, HeldText l.text) :
    ∃ h', h.assertTerminate = .ok h' ∧
      Holds h' { lines := closeLast ls, size := h.size, packed := false } := by
  have hlen : h.buf.length = (ls.map (lineBytes false)).flatten.length + (2 + tail.length) := by
    rw [hbuf, length_append, length_append, crlf_length]
  rcases eq_nil_or_concat ls with rfl | ⟨ks, k, hks⟩
  · refine ⟨{ h with bufused := 0 }, ?_, nil_prefix, rfl, ?_, hindex, rfl, Nat.zero_le _, hpacked,
      nofun, nofun⟩
    · have hnil : h.headers = [] := hindex
      rw [HeaderBuf.assertTerminate, terminate, if_pos hnil]
      rfl
    · show 0 < h.buf.length
      omega
  rw [concat_eq_append] at hks
  have hne : ls ≠ [] := by simp [hks]
  have hk : HeldText k.text := htext k (by simp [hks])
  by_cases hcr : k.crlf = true
  · -- the end of the last line is that of a closed list
    have hlast : ∀ l ∈ ls.getLast?, l.crlf = true := by
      rw [hks]
      simpa using hcr
    have hbytes : ({ lines := ls, size := h.size } : Headers).buf =
        (ls.map (lineBytes false)).flatten ++ crlf := buf_eq_segs hne
    have hheld : Holds h { lines := ls, size := h.size, packed := false } := by
      refine ⟨?_, ?_, ?_, hindex, rfl, hroom, hpacked, htext, hlast⟩
      · rw [hbytes, hbuf, ← append_assoc]
        exact prefix_append _ _
      · rw [hbytes, hused, length_append, crlf_length]
      · rw [hbytes, length_append, crlf_length]
        omega
    rw [closeLast_of_closed hlast]
    exact ⟨h, hheld.assertTerminate, hheld⟩
  -- the end of the last line is a bare line feed, now a zero
  generalize hbefore : (ks.map (lineBytes false)).flatten ++ k.text = before
  have hflat : (ls.map (lineBytes false)).flatten = before ++ [0] := by
    rw [hks, ← hbefore]
    simp [lineBytes, lineEnd, hcr]
  have hclosed : h.closed = false := by
    rw [← Bool.not_eq_true]
    intro hc
    obtain ⟨xs, b, hxs, -⟩ := eq_append_of_closed hc
    rw [hused, hbuf, ← append_assoc, take_append_of_le_length (by simp),
      take_of_length_le (by simp), hflat] at hxs
    have hrev := congrArg reverse hxs
    simp [crlf] at hrev
  rw [hflat, length_append, length_singleton] at hlen hused
  have hterm := @terminate_append h before [0, 13, 10] tail (by rw [hbuf, hflat]; simp [crlf])
    (by rw [hused]; simp)
    (by rw [hindex, hks]; simp [starts_append, starts])
    (by rw [← hbefore]; simp [hk.ne])
    (by
      rw [← hbefore, getLast?_append_of_ne_nil _ hk.ne]
      exact hk.last)
    (by decide) hpacked hclosed (by omega)
  have hbytes : ({ lines := ks ++ [{ k with crlf := true }], size := h.size } : Headers).buf =
      before ++ [0, 10, 13, 10] := by
    rw [buf_eq_segs (by simp), segs, ← hbefore]
    simp [lineBytes, lineEnd, crlf]
  have hsame : starts 0 ((ks ++ [k]).map (lineBytes false)) =
      starts 0 ((ks ++ [{ k with crlf := true }]).map (lineBytes false)) := by
    rw [map_append, map_append, starts_append, starts_append]
    rfl
  rw [hks, closeLast_concat]
  refine ⟨_, hterm, ?_, ?_, ?_, ?_, rfl, ?_, hpacked, ?_, by simp⟩
  · rw [hbytes]
    exact prefix_append _ _
  · rw [hbytes, length_append]
    rfl
  · rw [hbytes]
    simp only [length_append, length_drop]
    omega
  · rw [segs, ← hsame, ← hks]
    exact hindex
  · rw [hks] at hroom
    simpa using hroom
  · intro l hl
    rcases mem_append.mp hl with hl | hl
    · exact htext l (by simp [hks, hl])
    · rw [mem_singleton.mp hl]
      exact hk

variable (hh : Holds h hs)
include hh

theorem removeLast (hp : hs.packed = false) (hls : hs.lines = ls ++ [l]) :
    ∃ p h1 h', h.headers.drop ls.length = [p] ∧ h.removeLast p = .ok h1 ∧
      h1.assertTerminate = .ok h' ∧ Holds h' { hs with lines := closeLast ls } := by
  obtain ⟨spare, hspare, hbuf⟩ := hh.buf_split hp hls (by simp)
  have hindex := hh.index_split hp hls
  have hstarts : ((starts 0 (ls.map (lineBytes false))).map (h.addr + ·)).length = ls.length := by
    simp
  have hline : 0 < l.text.length := length_pos_iff.mpr (hh.text l (by simp [hls])).ne
  have hend : 1 ≤ (lineEnd false l.crlf).length := by cases l.crlf <;> decide
  have hlen : h.buf.length = (ls.map (lineBytes false)).flatten.length +
      (l.text.length + ((lineEnd false l.crlf).length + (2 + spare.length))) := by
    rw [hbuf]
    simp [lineBytes]
  have hroom : hs.lines.length ≤ hs.size := hh.room
  rw [hls, length_append] at hroom
  have hprefix : h.buf.take (ls.map (lineBytes false)).flatten.length =
      (ls.map (lineBytes false)).flatten := by
    rw [hbuf, take_left]
  generalize hfirst : (ls.map (lineBytes false)).flatten = first at *
  have hwrite : first.length + [(13 : UInt8), 10].length ≤ h.buf.length := by
    show first.length + 2 ≤ _
    omega
  have hwritten : write h.buf first.length [13, 10] = first ++ (crlf ++ h.buf.drop (first.length + 2)) := by
    rw [write, hprefix, append_assoc]
    rfl
  have hremove : h.removeLast (h.addr + first.length) = .ok { h with
      buf := first ++ (crlf ++ h.buf.drop (first.length + 2))
      bufused := first.length + 2
      headers := h.headers.dropLast } := by
    unfold HeaderBuf.removeLast
    dsimp only
    rw [Nat.add_sub_cancel_left, store_of_le hwrite]
    show (HeaderBuf.assert (decide (first.length + 2 ≤ (write h.buf first.length [13, 10]).length)) >>= _) = _
    rw [length_write hwrite, assert_of_true (decide_eq_true (show first.length + 2 ≤ _ from hwrite)),
      hwritten]
    rfl
  have hdropLast : h.headers.dropLast = (starts 0 (ls.map (lineBytes false))).map (h.addr + ·) := by
    rw [hindex]
    exact dropLast_concat
  obtain ⟨h', hterm, hheld⟩ := @reclose { h with
      buf := first ++ (crlf ++ h.buf.drop (first.length + 2))
      bufused := first.length + 2
      headers := h.headers.dropLast } ls (h.buf.drop (first.length + 2))
    (by rw [length_drop]; omega) (by rw [hfirst]) (by rw [hfirst]) hdropLast
    (by dsimp only; rw [hh.size]; omega) (hh.packed.trans hp)
    (hh.text_of_sub (by rw [hls]; simp))
  refine ⟨h.addr + first.length, _, h', ?_, hremove, hterm, ?_⟩
  · rw [hindex, ← hstarts, drop_left]
    rfl
  · rw [hp, ← hh.size]
    exact hheld

/-- An entry of the index is taken away with its line. -/
theorem removeAt (hp : hs.packed = false) {ls rs : List HeaderLine}
    (hls : hs.lines = ls ++ l :: rs) :
    ∃ h', h.removeAt ls.length = .ok h' ∧ Holds h' { hs with lines := closeLast (ls ++ rs) } := by
  unfold HeaderBuf.removeAt
  by_cases hrs : rs = []
  · subst hrs
    obtain ⟨p, h1, h', hdrop, hremove, hterm, hheld⟩ := hh.removeLast hp hls
    rw [append_nil]
    refine ⟨h', ?_, hheld⟩
    rw [hdrop]
    show (h.removeLast p >>= _) = _
    rw [hremove]
    exact hterm
  · obtain ⟨p, q, ps, h', hdrop, hremove, hheld⟩ := hh.removeInner hp hls hrs
    rw [closeLast_of_closed hheld.last]
    refine ⟨h', ?_, hheld⟩
    rw [hdrop]
    show (h.removeInner ls.length p q >>= _) = _
    rw [hremove]
    exact hheld.assertTerminate

/-- `ci_headers_remove` takes away the first line with the name. -/
theorem remove (a : Allocator) {name : List UInt8} (hname : 0 ∉ name) :
    ∃ ok h', h.remove a name = .ok (ok, h') ∧
      (ok = true ↔ hs.packed = false ∧ ∃ l ∈ hs.lines, named name l.text = true) ∧
      ∃ size, hs.GrowsTo size ∧ Holds h' { hs.remove name with size := size } := by
  unfold HeaderBuf.remove Headers.remove
  by_cases hp : hs.packed = true
  · rw [if_pos (hh.packed.trans hp), if_pos hp]
    refine ⟨false, h, rfl, ?_, hs.size, .refl hs, hh⟩
    simp [hp]
  rw [if_neg (by rw [hh.packed]; exact hp), if_neg hp]
  rw [Bool.not_eq_true] at hp
  obtain ⟨size, hgrows, hh1⟩ := hh.checkSpace_any a 0 0
  generalize (h.checkSpace a 0 0).2 = h1 at hh1
  dsimp only
  rw [hh1.assertTerminate]
  have hfind := @findHeader _ _ hh1 hp name hname [] hs.lines rfl
  have hindex := hh1.index
  rw [segs, hp] at hindex
  rw [map_nil, flatten_nil, length_nil, ← hindex, length_nil] at hfind
  by_cases hex : ∃ l ∈ hs.lines, named name l.text = true
  · obtain ⟨k, hk, hknamed⟩ := hex
    obtain ⟨l, ls, rs, hbefore, hl, hlines, herase⟩ :=
      exists_of_eraseP (p := fun l => named name l.text) hk hknamed
    obtain ⟨h', hremove, hheld⟩ := hh1.removeAt hp hlines
    have hidx : hs.lines.findIdx? (fun l => named name l.text) = some ls.length := by
      have hnone : ls.findIdx? (fun l => named name l.text) = none := by
        rw [findIdx?_eq_none_iff]
        intro b hb
        simpa using hbefore b hb
      rw [hlines, findIdx?_append, hnone, findIdx?_cons]
      simp [hl]
    rw [hidx] at hfind
    refine ⟨true, h', ?_, by simp [hp]; exact ⟨k, hk, hknamed⟩, size, hgrows, ?_⟩
    · show (h1.findHeader name h1.headers 0 >>= _) = _
      rw [hfind]
      show (h1.removeAt ls.length >>= _) = _
      rw [hremove]
      rfl
    · rw [herase]
      exact hheld
  · have hnone : ∀ l ∈ hs.lines, ¬ named name l.text = true := fun l hl hnm => hex ⟨l, hl, hnm⟩
    have hidx : hs.lines.findIdx? (fun l => named name l.text) = none := by
      rw [findIdx?_eq_none_iff]
      intro l hl
      simpa using hnone l hl
    rw [hidx] at hfind
    refine ⟨false, h1, ?_, by simp [hex], size, hgrows, ?_⟩
    · show (h1.findHeader name h1.headers 0 >>= _) = _
      rw [hfind]
      rfl
    · rw [eraseP_of_forall_not hnone, closeLast_of_closed hh1.last]
      exact hh1

end Holds

/-! ## Packing -/

theorem byte_append (hbuf : h.buf = before ++ b :: after) : h.byte before.length = .ok b := by
  rw [HeaderBuf.byte, hbuf, Segments.getElem?_append]

theorem store_append (c : UInt8) (hbuf : h.buf = before ++ b :: after) :
    h.store before.length [c] = .ok { h with buf := before ++ c :: after } := by
  have hwrite := write_append before [b] after [c] rfl
  rw [store_of_le (by rw [hbuf]; simp), hbuf]
  simpa using hwrite

/-- The line end in front of the next header is put back. -/
theorem packEntry_append {l : HeaderLine}
    (htext : HeldText l.text) (hbuf : h.buf = before ++ (lineBytes false l ++ after))
    (hused : before.length + (lineBytes false l).length < h.bufused) :
    h.packEntry (h.addr + (before.length + (lineBytes false l).length)) =
      .ok { h with buf := before ++ (lineBytes true l ++ after) } := by
  obtain ⟨t, x, ht⟩ := (eq_nil_or_concat l.text).resolve_left htext.ne
  have hx : x ≠ 0 := fun h0 => htext.nul (by rw [ht, h0]; simp)
  have hlen : l.text.length = t.length + 1 := by rw [ht]; simp
  have hpos : 2 ≤ before.length + (lineBytes false l).length := by
    cases hcr : l.crlf <;> simp [lineBytes, lineEnd, hcr] <;> omega
  unfold HeaderBuf.packEntry
  dsimp only
  rw [Nat.add_sub_cancel_left, assert_of_true (decide_eq_true hused),
    assert_of_true (decide_eq_true (show 1 ≤ _ by omega))]
  simp only [if_pos hpos]
  cases hcr : l.crlf with
  | true =>
    have hb : h.buf = (before ++ l.text ++ [0]) ++ 10 :: after := by
      rw [hbuf]
      simp [lineBytes, lineEnd, hcr]
    have hb2 : h.buf = (before ++ l.text) ++ 0 :: (10 :: after) := by
      rw [hb]
      simp
    have h1 : before.length + (lineBytes false l).length - 1 =
        (before ++ l.text ++ [0]).length := by
      simp [lineBytes, lineEnd, hcr]
    have h2 : before.length + (lineBytes false l).length - 2 = (before ++ l.text).length := by
      simp [lineBytes, lineEnd, hcr]
      omega
    rw [h1, byte_append hb, h2]
    show (h.byte _ >>= _) = _
    rw [byte_append hb2]
    show h.store _ [13] = _
    rw [store_append 13 hb2]
    simp [lineBytes, lineEnd, hcr]
  | false =>
    have hb : h.buf = (before ++ l.text) ++ 0 :: after := by
      rw [hbuf]
      simp [lineBytes, lineEnd, hcr]
    have h1 : before.length + (lineBytes false l).length - 1 = (before ++ l.text).length := by
      simp [lineBytes, lineEnd, hcr]
    have h2 : before.length + (lineBytes false l).length - 2 = (before ++ t).length := by
      simp [lineBytes, lineEnd, hcr, hlen]
      omega
    rw [h1, byte_append hb, h2]
    rw [store_append 10 hb]
    have hb2 : ({ h with buf := before ++ l.text ++ 10 :: after } : HeaderBuf).buf =
        (before ++ t) ++ x :: (10 :: after) := by
      simp [ht]
    show (HeaderBuf.byte _ _ >>= _) = _
    rw [byte_append hb2]
    show (if x = 0 then _ else _) = _
    rw [if_neg hx]
    simp [lineBytes, lineEnd, hcr]

/-- The loop of `ci_headers_pack` puts back the line ends of all lines but the last. -/
theorem foldlM_packEntry {h : HeaderBuf} {ls rs : List HeaderLine} {l : HeaderLine}
    {after : List UInt8} (htext : ∀ k ∈ l :: rs, HeldText k.text)
    (hbuf : h.buf = (ls.map (lineBytes true)).flatten ++
      (((l :: rs).map (lineBytes false)).flatten ++ after))
    (hused : (ls.map (lineBytes true)).flatten.length +
      ((l :: rs).map (lineBytes false)).flatten.length < h.bufused) :
    ∃ ks k, ls ++ l :: rs = ks ++ [k] ∧
      ((starts ((ls.map (lineBytes true)).flatten.length + (lineBytes false l).length)
        (rs.map (lineBytes false))).map (h.addr + ·)).foldlM packEntry h =
      .ok { h with
        buf := (ks.map (lineBytes true)).flatten ++ (lineBytes false k ++ after) } := by
  induction rs generalizing h ls l with
  | nil =>
    refine ⟨ls, l, rfl, ?_⟩
    have hsame : (ls.map (lineBytes true)).flatten ++ (lineBytes false l ++ after) = h.buf := by
      rw [hbuf]
      simp
    rw [hsame]
    rfl
  | cons r rs ih =>
    have hl : HeldText l.text := htext l (by simp)
    have hlenEq : (lineBytes true l).length = (lineBytes false l).length := by
      unfold lineBytes
      cases l.crlf <;> simp [lineEnd]
    have hsplit : h.buf = (ls.map (lineBytes true)).flatten ++ (lineBytes false l ++
        (((r :: rs).map (lineBytes false)).flatten ++ after)) := by
      rw [hbuf, map_cons, flatten_cons, append_assoc]
    rw [map_cons, flatten_cons, length_append] at hused
    have hfirst := packEntry_append hl hsplit (by omega)
    obtain ⟨ks, k, hks, hrest⟩ := @ih { h with
        buf := (ls.map (lineBytes true)).flatten ++ (lineBytes true l ++
          (((r :: rs).map (lineBytes false)).flatten ++ after)) } (ls ++ [l]) r
      ((forall_mem_cons.mp htext).2) (by simp)
      (by
        rw [map_append, flatten_append, length_append]
        simp only [map_cons, map_nil, flatten_cons, flatten_nil, append_nil]
        simp only [map_cons, flatten_cons] at hused
        omega)
    refine ⟨ks, k, by rw [← hks]; simp, ?_⟩
    have hlen : ((ls ++ [l]).map (lineBytes true)).flatten.length =
        (ls.map (lineBytes true)).flatten.length + (lineBytes false l).length := by
      rw [← hlenEq]
      simp
    rw [hlen] at hrest
    rw [map_cons, starts, map_cons, foldlM_cons, hfirst]
    exact hrest

namespace Holds

variable {h : HeaderBuf} {hs : Headers}

/-- `ci_headers_pack` -/
theorem pack (hh : Holds h hs) (a : Allocator) :
    ∃ h', h.pack a = .ok h' ∧ ∃ size, hs.GrowsTo size ∧ Holds h' { hs.pack with size := size } := by
  unfold HeaderBuf.pack Headers.pack
  by_cases hp : hs.packed = true
  · rw [if_pos (hh.packed.trans hp)]
    refine ⟨h, rfl, hs.size, .refl hs, ?_⟩
    split
    · exact hh
    · rw [← hp]
      exact hh
  rw [if_neg (by rw [hh.packed]; exact hp)]
  rw [Bool.not_eq_true] at hp
  by_cases hne : hs.lines = []
  · rw [if_pos (.inr (hh.headers_eq_nil_iff.mpr hne)), if_pos hne]
    exact ⟨h, rfl, hs.size, .refl hs, hh⟩
  have hfour := hh.four_le hne
  rw [if_neg (by
    rintro (h0 | hnil)
    · omega
    · exact hne (hh.headers_eq_nil_iff.mp hnil)), if_neg hne]
  obtain ⟨size, hgrows, hh1⟩ := hh.checkSpace_any a 0 0
  generalize (h.checkSpace a 0 0).2 = h1 at hh1
  have hp1 : ({ hs with size := size } : Headers).packed = false := hp
  obtain ⟨spare, hspare, hbuf⟩ := @buf_split _ _ hh1 hp1 [] hs.lines rfl hne
  have hused := @bufused_split _ _ hh1 hp1 [] hs.lines rfl hne
  have hindex := hh1.index
  rw [segs, hp1] at hindex
  obtain ⟨l, rs, hls⟩ := exists_cons_of_ne_nil hne
  rw [hls] at hbuf hused hindex
  rw [append_assoc] at hbuf
  obtain ⟨ks, k, hks, hloop⟩ := @foldlM_packEntry h1 [] rs l (crlf ++ spare)
    (by rw [← hls]; exact hh.text) hbuf (by rw [hused]; simp)
  rw [nil_append, ← hls] at hks
  have hcr : k.crlf = true := hh.last k (by rw [hks]; simp)
  have htail : h1.headers.tail =
      (starts ((([] : List HeaderLine).map (lineBytes true)).flatten.length +
        (lineBytes false l).length) (rs.map (lineBytes false))).map (h1.addr + ·) := by
    rw [hindex]
    rfl
  generalize hbefore : (ks.map (lineBytes true)).flatten ++ k.text = before
  have hpacked : (ks.map (lineBytes true)).flatten ++
      (lineBytes false k ++ (crlf ++ spare)) = before ++ 0 :: ([10, 13, 10] ++ spare) := by
    rw [← hbefore]
    simp [lineBytes, lineEnd, hcr, crlf]
  have hnew : ({ lines := hs.lines, size := size, packed := true } : Headers).buf =
      before ++ [13, 10, 13, 10] := by
    have hseg := @Headers.buf_eq_segs { lines := hs.lines, size := size, packed := true } hne
    rw [hseg, segs, hks, ← hbefore]
    simp [lineBytes, lineEnd, hcr, crlf]
  have hlens : (hs.lines.map (lineBytes true)).map length =
      (hs.lines.map (lineBytes false)).map length := by
    rw [map_map, map_map]
    apply map_congr_left
    intro k _
    show (lineBytes true k).length = (lineBytes false k).length
    unfold lineBytes
    cases k.crlf <;> simp [lineEnd]
  have hlen : h1.bufused = before.length + 4 := by
    have hseg := @Headers.buf_eq_segs { lines := hs.lines, size := size, packed := true } hne
    have hflat : (hs.lines.map (lineBytes true)).flatten.length =
        (hs.lines.map (lineBytes false)).flatten.length := by
      rw [length_flatten, length_flatten, hlens]
    have hsum := congrArg length (hseg.symm.trans hnew)
    rw [segs, length_append, hflat, hls] at hsum
    rw [hused]
    simpa using hsum
  have hspareLen : 0 < spare.length := length_pos_iff.mpr hspare
  refine ⟨{ h1 with buf := before ++ 13 :: ([10, 13, 10] ++ spare), packed := true }, ?_, size, hgrows, ?_⟩
  · dsimp only
    rw [hh1.assertTerminate]
    show (h1.headers.tail.foldlM packEntry h1 >>= _) = _
    rw [htail, hloop, hpacked]
    generalize hh2 : ({ h1 with buf := before ++ 0 :: ([10, 13, 10] ++ spare) } : HeaderBuf) = h2
    have hbuf2 : h2.buf = before ++ 0 :: ([10, 13, 10] ++ spare) := by rw [← hh2]
    have hused2 : h2.bufused = before.length + 4 := by
      rw [← hh2]
      exact hlen
    have hend : (h2.buf.take h2.bufused).drop (h2.bufused - 3) = [10, 13, 10] := by
      rw [hused2, hbuf2, show before ++ 0 :: ([10, 13, 10] ++ spare) =
        (before ++ [0] ++ [10, 13, 10]) ++ spare by simp,
        take_left' (by simp), show before.length + 4 - 3 = (before ++ [(0 : UInt8)]).length by simp,
        drop_left]
    show (HeaderBuf.assert (decide (4 ≤ h2.bufused)) >>= _) = _
    rw [assert_of_true (decide_eq_true (by omega)), assert_of_true (decide_eq_true hend),
      show h2.bufused - 4 = before.length by omega, store_append 13 hbuf2, ← hh2]
    rfl
  · refine ⟨?_, ?_, ?_, ?_, hh1.size, hh1.room, rfl, hh.text, hh.last⟩
    · rw [hnew]
      exact ⟨spare, by simp⟩
    · rw [hnew]
      simpa using hlen
    · rw [hnew]
      simp
      omega
    · rw [segs, starts_congr hlens]
      rw [hls]
      exact hindex

end Holds

end CIcap
