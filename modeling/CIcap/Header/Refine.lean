import CIcap.Header.Buffer

/-! # The buffer holds a list of headers

`Holds h hs`: the buffer `h` has the bytes of the header list `hs`, closed by a blank line, and
its index points to the lines. Every operation on the buffer keeps this relation with the same
operation on the list.
-/

namespace CIcap

open CText Segments HeaderBuf List

namespace Headers

def lineBytes (packed : Bool) (l : HeaderLine) : List UInt8 := l.text ++ lineEnd packed l.crlf

def segs (hs : Headers) : List (List UInt8) := hs.lines.map (lineBytes hs.packed)

theorem buf_eq_segs {hs : Headers} (h : hs.lines ≠ []) : hs.buf = hs.segs.flatten ++ crlf := by
  rw [buf, if_neg h]
  rfl

/-- The last line ends with `\r\n`. -/
def closeLast : List HeaderLine → List HeaderLine
  | [] => []
  | [l] => [{ l with crlf := true }]
  | l :: ls => l :: closeLast ls

/-- `ci_headers_remove` -/
def remove (hs : Headers) (name : List UInt8) : Headers :=
  if hs.packed then hs
  else { hs with lines := closeLast (hs.lines.eraseP (fun l => named name l.text)) }

end Headers

open Headers (segs buf_eq_segs)

/-- A text that stays apart from the line ends around it. -/
structure HeldText (t : List UInt8) : Prop where
  ne : t ≠ []
  nul : 0 ∉ t
  last : ∀ b ∈ t.getLast?, endByte b = false

theorem heldText_of_clean {line : List UInt8} (hne : line ≠ [])
    (hclean : ∀ b ∈ line, b ≠ 13 ∧ b ≠ 10 ∧ b ≠ 0) : HeldText line := by
  refine ⟨hne, fun h0 => (hclean 0 h0).2.2 rfl, ?_⟩
  intro b hb
  obtain ⟨h13, h10, h0⟩ := hclean b (mem_of_getLast? hb)
  simp [endByte, h13, h10, h0]

/-- The buffer has the lines of the list and its index points to them. -/
structure Holds (h : HeaderBuf) (hs : Headers) : Prop where
  buf : hs.buf <+: h.buf
  bufused : h.bufused = hs.buf.length
  /-- there is a byte behind the used ones -/
  spare : hs.buf.length < h.buf.length
  index : h.headers = (starts 0 hs.segs).map (h.addr + ·)
  size : h.size = hs.size
  room : hs.lines.length ≤ hs.size
  packed : h.packed = hs.packed
  text : ∀ l ∈ hs.lines, HeldText l.text
  last : ∀ l ∈ hs.lines.getLast?, l.crlf = true

namespace Holds

variable {h : HeaderBuf} {hs : Headers} (hh : Holds h hs)
include hh

theorem used : h.buf.take h.bufused = hs.buf := by
  obtain ⟨spare, hspare⟩ := hh.buf
  rw [← hspare, hh.bufused, take_left]

theorem headers_length : h.headers.length = hs.lines.length := by
  simp [hh.index, segs]

theorem headers_eq_nil_iff : h.headers = [] ↔ hs.lines = [] := by
  rw [← length_eq_zero_iff, hh.headers_length, length_eq_zero_iff]

end Holds

/-- The bytes of a list end with the line end of its last line and a blank line. -/
theorem Headers.buf_eq_close {hs : Headers} (hne : hs.lines ≠ [])
    (hlast : ∀ l ∈ hs.lines.getLast?, l.crlf = true) :
    ∃ ls l, hs.lines = ls ++ [l] ∧ hs.buf = ((ls.map (lineBytes hs.packed)).flatten ++ l.text) ++
        [if hs.packed then 13 else 0, 10, 13, 10] := by
  obtain ⟨ls, l, hl⟩ := (eq_nil_or_concat hs.lines).resolve_left hne
  rw [concat_eq_append] at hl
  have hcr : l.crlf = true := hlast l (by rw [hl]; simp)
  rw [buf_eq_segs hne, segs, hl]
  cases hs.packed <;> simp [hcr, lineBytes, lineEnd, crlf]

namespace Holds

variable {h : HeaderBuf} {hs : Headers} (hh : Holds h hs)
include hh

theorem four_le (hne : hs.lines ≠ []) : 4 ≤ h.bufused := by
  obtain ⟨_, _, -, hbuf⟩ := Headers.buf_eq_close hne hh.last
  rw [hh.bufused, hbuf, length_append]
  simp

theorem closed (hne : hs.lines ≠ []) : h.closed = true := by
  obtain ⟨ls, l, -, hbuf⟩ := Headers.buf_eq_close hne hh.last
  have hfour : (h.buf.take h.bufused).drop (h.bufused - 4) =
      [if hs.packed then 13 else 0, 10, 13, 10] := by
    rw [hh.used, hh.bufused, hbuf, length_append, length_cons, length_cons,
      length_cons, length_cons, length_nil, Nat.add_sub_cancel, drop_left]
  rw [HeaderBuf.closed, hfour]
  cases hs.packed <;> rfl

/-- A list that is held is closed, so nothing is to be done. -/
theorem assertTerminate : h.assertTerminate = .ok h := by
  have hterm : h.terminate = .ok (true, h) := by
    unfold terminate
    by_cases hne : hs.lines = []
    · have hzero : h.bufused = 0 := by rw [hh.bufused, Headers.buf, if_pos hne, length_nil]
      rw [if_pos (hh.headers_eq_nil_iff.mpr hne), ← hzero]
    · rw [if_neg (fun hnil => hne (hh.headers_eq_nil_iff.mp hnil)), if_pos (hh.closed hne)]
  rw [HeaderBuf.assertTerminate, hterm]
  rfl

end Holds

/-! ## Space -/

def Allocator.Fails (a : Allocator) : Prop :=
  a.object = false ∨ (∃ n, a.index n = false) ∨ ∃ n, a.buffer n = none

def HeaderBuf.CanClone (h : HeaderBuf) (a : Allocator) : Prop :=
  a.object = true ∧ a.index h.size = true ∧ (a.buffer h.buf.length).isSome = true

variable {need fuel required : Nat}

/-- The loop over the size of the index, in closed form. -/
theorem indexSpace_eq (hfuel : need ≤ required + fuel) :
    indexSpace need fuel required =
      if need - required = 0 then some required
      else
        let r := required + 64 * ((need - required + 64 - 1) / 64)
        if 2048 < r then none else some r := by
  induction fuel generalizing required with
  | zero =>
    rw [indexSpace, if_pos (by omega)]
  | succ fuel ih =>
    have hround : indexSpace need (fuel + 1) required =
        if required < need then
          if 2048 < required + 64 then none else indexSpace need fuel (required + 64)
        else some required := rfl
    rw [hround]
    by_cases hlt : required < need
    · have hmissing : ¬ need - required = 0 := by omega
      rw [if_pos hlt, if_neg hmissing]
      by_cases hlimit : 2048 < required + 64
      · rw [if_pos hlimit, if_pos (by omega)]
      · rw [if_neg hlimit, ih (by omega)]
        by_cases henough : need - (required + 64) = 0
        · have hone : (need - required + 64 - 1) / 64 = 1 := by omega
          rw [if_pos henough, hone, if_neg (by omega)]
        · have hsum : required + 64 + 64 * ((need - (required + 64) + 64 - 1) / 64) =
              required + 64 * ((need - required + 64 - 1) / 64) := by omega
          rw [if_neg henough, hsum]
    · rw [if_neg hlt, if_pos (by omega)]

theorem le_memSpace (hfuel : need ≤ required + fuel) :
    required ≤ memSpace need fuel required ∧ need ≤ memSpace need fuel required := by
  induction fuel generalizing required with
  | zero =>
    rw [memSpace]
    omega
  | succ fuel ih =>
    rw [memSpace]
    split
    · have := @ih (required + headsBufSize) (by unfold headsBufSize; omega)
      exact ⟨le_trans (by omega) this.1, this.2⟩
    · omega

/-- What `headers_check_space` changes: the index has another size, and the buffer may have moved and
the pointers with it. -/
def HeaderBuf.Spaced (h : HeaderBuf) (size : Nat) (h' : HeaderBuf) : Prop :=
  h' = { h with size := size } ∨ ∃ addr more, h' = { h with
    size := size
    addr := addr
    buf := h.buf ++ more
    headers := h.headers.map (fun p => addr + (p - h.addr)) }

theorem HeaderBuf.Spaced.frame {h h' : HeaderBuf} {size : Nat} (hs : h.Spaced size h') :
    (∃ more, h'.buf = h.buf ++ more) ∧ h'.bufused = h.bufused ∧ h'.packed = h.packed ∧
      h'.headers.length = h.headers.length ∧ h'.size = size := by
  rcases hs with rfl | ⟨addr, more, rfl⟩
  · exact ⟨⟨[], (append_nil _).symm⟩, rfl, rfl, rfl, rfl⟩
  · exact ⟨⟨more, rfl⟩, rfl, rfl, length_map _, rfl⟩

theorem HeaderBuf.Spaced.index {h h' : HeaderBuf} {size : Nat} (hs : h.Spaced size h') {ps : List Nat}
    (hindex : h.headers = ps.map (h.addr + ·)) : h'.headers = ps.map (h'.addr + ·) := by
  rcases hs with rfl | ⟨addr, more, rfl⟩
  · exact hindex
  · rw [hindex]
    simp

/-- The size of an index with `n` more entries. -/
def HeaderBuf.indexSize (h : HeaderBuf) (n : Nat) : Option Nat :=
  indexSpace (h.headers.length + n) (h.headers.length + n) h.size

/-- The space that is asked for is there, or an allocation failed or the index is at its limit. -/
theorem checkSpace_cases (a : Allocator) (h : HeaderBuf) (n m : Nat) :
    ∃ ok size h', h.checkSpace a n m = (ok, h') ∧ h.Spaced size h' ∧
      (h.indexSize n = some size ∨ size = h.size) ∧
      (ok = true ∧ h.indexSize n = some size ∧ h'.bufused + m + 4 ≤ h'.buf.length ∨
        ok = false ∧ (h.indexSize n = none ∨ a.Fails)) := by
  unfold HeaderBuf.checkSpace
  rw [show indexSpace _ _ _ = h.indexSize n from rfl]
  cases hspace : h.indexSize n with
  | none => exact ⟨false, h.size, h, rfl, .inl rfl, .inr rfl, .inr ⟨rfl, .inl rfl⟩⟩
  | some size =>
    have hge : h.size ≤ size := by
      rw [HeaderBuf.indexSize, indexSpace_eq (by omega)] at hspace
      dsimp only at hspace
      split_ifs at hspace <;> simp only [Option.some.injEq] at hspace <;> omega
    have hgrown : (if h.size < size then { h with size := size } else h) = { h with size := size } := by
      split
      · rfl
      · rw [show size = h.size by omega]
    dsimp only
    rw [hgrown]
    have hmem := @le_memSpace (h.bufused + m + 4) (h.bufused + m + 4) h.buf.length (by omega)
    by_cases hidx : h.size < size ∧ (!a.index size) = true
    · rw [if_pos hidx]
      exact ⟨false, h.size, h, rfl, .inl rfl, .inr rfl,
        .inr ⟨rfl, .inr (.inr (.inl ⟨size, by simpa using hidx.2⟩))⟩⟩
    rw [if_neg hidx]
    by_cases hgrow : h.buf.length < memSpace (h.bufused + m + 4) (h.bufused + m + 4) h.buf.length
    · rw [if_pos hgrow]
      cases halloc : a.buffer (memSpace (h.bufused + m + 4) (h.bufused + m + 4) h.buf.length) with
      | none =>
        exact ⟨false, size, _, rfl, .inl rfl, .inl rfl, .inr ⟨rfl, .inr (.inr (.inr ⟨_, halloc⟩))⟩⟩
      | some mem =>
        refine ⟨true, size, _, rfl, .inr ⟨mem.addr, _, rfl⟩, .inl rfl, .inl ⟨rfl, rfl, ?_⟩⟩
        simp only [length_append, length_map, length_range]
        omega
    · rw [if_neg hgrow]
      exact ⟨true, size, _, rfl, .inl rfl, .inl rfl, .inl ⟨rfl, rfl, by dsimp only; omega⟩⟩

/-- The sizes that an index grows to. -/
def Headers.GrowsTo (hs : Headers) (size : Nat) : Prop := ∃ k, size = hs.size + headerStartSize * k

theorem Headers.GrowsTo.refl (hs : Headers) : hs.GrowsTo hs.size := ⟨0, rfl⟩

theorem Headers.le_of_checkSpace {hs : Headers} {n size : Nat} (h : hs.checkSpace n = some size) :
    hs.lines.length + n ≤ size ∧ hs.GrowsTo size := by
  unfold checkSpace at h
  dsimp only at h
  split_ifs at h
  · simp only [Option.some.injEq] at h
    exact ⟨by omega, h ▸ .refl hs⟩
  · simp only [Option.some.injEq] at h
    refine ⟨?_, _, h.symm⟩
    unfold headerStartSize at h
    omega

namespace Holds

variable {h : HeaderBuf} {hs : Headers} (hh : Holds h hs)
include hh

theorem indexSize (n : Nat) : h.indexSize n = hs.checkSpace n := by
  rw [HeaderBuf.indexSize, indexSpace_eq (by omega), hh.headers_length, hh.size]
  rfl

theorem spaced {h' : HeaderBuf} {size : Nat} (hs' : h.Spaced size h')
    (hsize : hs.lines.length ≤ size) : Holds h' { hs with size := size } := by
  obtain ⟨⟨more, hbuf⟩, hused, hpacked, -, hsize'⟩ := hs'.frame
  refine ⟨?_, hused.trans hh.bufused, ?_, hs'.index hh.index, hsize', hsize,
    hpacked.trans hh.packed, hh.text, hh.last⟩
  · rw [hbuf]
    exact hh.buf.trans (prefix_append _ _)
  · have hspare := hh.spare
    rw [hbuf, length_append]
    exact hspare.trans_le (Nat.le_add_right _ _)

/-- The space that is asked for is there, or an allocation failed or the index is at its limit. -/
theorem checkSpace (a : Allocator) (n m : Nat) :
    match h.checkSpace a n m with
    | (true, h') => ∃ size, hs.checkSpace n = some size ∧ Holds h' { hs with size := size } ∧
        h'.bufused + m + 4 ≤ h'.buf.length
    | (false, h') => (hs.checkSpace n = none ∨ a.Fails) ∧
        ∃ size, hs.GrowsTo size ∧ Holds h' { hs with size := size } := by
  obtain ⟨ok, size, h', heq, hspaced, hsize, hok⟩ := checkSpace_cases a h n m
  rw [hh.indexSize] at hsize hok
  have hgrows : hs.lines.length ≤ size ∧ hs.GrowsTo size := by
    rcases hsize with hsome | rfl
    · have := Headers.le_of_checkSpace hsome
      exact ⟨by omega, this.2⟩
    · rw [hh.size]
      exact ⟨hh.room, .refl hs⟩
  have hheld := hh.spaced hspaced hgrows.1
  rw [heq]
  rcases hok with ⟨rfl, hsome, hroom⟩ | ⟨rfl, hwhy⟩
  · exact ⟨size, hsome, hheld, hroom⟩
  · exact ⟨hwhy, size, hgrows.2, hheld⟩

end Holds

/-- The list is held whether there is space or not. -/
theorem Holds.checkSpace_any {h : HeaderBuf} {hs : Headers} (hh : Holds h hs) (a : Allocator)
    (n m : Nat) : ∃ size, hs.GrowsTo size ∧ Holds (h.checkSpace a n m).2 { hs with size := size } := by
  have hspace := hh.checkSpace a n m
  generalize h.checkSpace a n m = r at hspace
  obtain ⟨ok, h1⟩ := r
  cases ok with
  | false => exact hspace.2
  | true =>
    obtain ⟨size, hsize, hh1, -⟩ := hspace
    exact ⟨size, (Headers.le_of_checkSpace hsize).2, hh1⟩

theorem store_of_le {h : HeaderBuf} {pos : Nat} {data : List UInt8}
    (hroom : pos + data.length ≤ h.buf.length) :
    h.store pos data = .ok { h with buf := write h.buf pos data } := if_pos hroom

theorem assert_of_true {p : Bool} (hp : p = true) : HeaderBuf.assert p = .ok () := by
  rw [hp]
  rfl

/-! ## Closing a list -/

theorem eq_append_of_closed {h : HeaderBuf} (hc : h.closed = true) :
    ∃ before b, h.buf.take h.bufused = before ++ [b, 10, 13, 10] ∧ (b = 13 ∨ b = 0) := by
  unfold HeaderBuf.closed at hc
  split at hc
  · rename_i b c d e hfour
    simp only [Bool.and_eq_true, Bool.or_eq_true, decide_eq_true_eq] at hc
    obtain ⟨⟨⟨hb, rfl⟩, rfl⟩, rfl⟩ := hc
    exact ⟨_, b, by rw [← hfour, take_append_drop], hb⟩
  · cases hc

/-- `headers_terminate` replaces the line ends behind the last header. -/
theorem terminate_append {h : HeaderBuf} {before ends spare : List UInt8}
    (hbuf : h.buf = before ++ ends ++ spare) (hused : h.bufused = (before ++ ends).length)
    (hne : h.headers ≠ []) (hbefore : before ≠ [])
    (hlast : ∀ b ∈ before.getLast?, endByte b = false) (hends : ∀ b ∈ ends, endByte b = true)
    (hpacked : h.packed = false) (hopen : h.closed = false)
    (hroom : before.length + 4 ≤ h.buf.length) :
    h.assertTerminate = .ok { h with
      buf := before ++ [0, 10, 13, 10] ++ h.buf.drop (before.length + 4)
      bufused := before.length + 4 } := by
  have hkept : ((h.buf.take h.bufused).reverse.dropWhile endByte).length = before.length := by
    rw [hbuf, hused, take_left, reverse_append,
      dropWhile_append_of_pos (fun b hb => hends b (mem_reverse.mp hb))]
    obtain ⟨xs, x, rfl⟩ := (eq_nil_or_concat before).resolve_left hbefore
    have hx : endByte x = false := hlast x (by simp)
    simp [hx]
  have hpos : before.length ≠ 0 := fun h0 => hbefore (length_eq_zero_iff.mp h0)
  have htake : h.buf.take before.length = before := by
    rw [hbuf, append_assoc, take_left]
  have hclosed : ¬ h.closed = true := by
    rw [hopen]
    decide
  have hstore : h.store before.length [if h.packed then 13 else 0, 10, 13, 10] = .ok { h with
      buf := before ++ [0, 10, 13, 10] ++ h.buf.drop (before.length + 4) } := by
    rw [store_of_le (show _ + [_, _, _, _].length ≤ _ from hroom), write, htake, hpacked]
    rfl
  have hterm : h.terminate = .ok (true, { h with
      buf := before ++ [0, 10, 13, 10] ++ h.buf.drop (before.length + 4)
      bufused := before.length + 4 }) := by
    unfold terminate
    rw [if_neg hne, if_neg hclosed, hkept, if_neg hpos, if_neg (by omega), hstore]
    rfl
  rw [HeaderBuf.assertTerminate, hterm]
  rfl

/-! ## Appending -/

namespace Holds

variable {h : HeaderBuf} {hs : Headers}

section

variable (hh : Holds h hs)
include hh

theorem openEnd : h.openEnd = .ok { h with bufused := hs.segs.flatten.length } := by
  unfold HeaderBuf.openEnd
  by_cases hne : hs.lines = []
  · have hseg : hs.segs = [] := by rw [segs, hne, map_nil]
    have hzero : h.bufused = 0 := by rw [hh.bufused, Headers.buf, if_pos hne, length_nil]
    rw [if_neg (not_not.mpr (hh.headers_eq_nil_iff.mpr hne)), hseg, flatten_nil,
      length_nil, ← hzero, assert_of_true (decide_eq_true rfl)]
    rfl
  · have hfour := hh.four_le hne
    have hlen : h.bufused - 2 = hs.segs.flatten.length := by
      rw [hh.bufused, buf_eq_segs hne, length_append, crlf_length, Nat.add_sub_cancel]
    rw [if_pos (fun hnil => hne (hh.headers_eq_nil_iff.mp hnil)), hlen,
      assert_of_true (decide_eq_true hfour)]
    rfl

theorem take_segs : h.buf.take hs.segs.flatten.length = hs.segs.flatten := by
  obtain ⟨spare, hspare⟩ := hh.buf
  by_cases hne : hs.lines = []
  · simp [segs, hne]
  · rw [← hspare, buf_eq_segs hne, append_assoc, take_left]

theorem segs_length_le : hs.segs.flatten.length ≤ h.bufused := by
  rw [hh.bufused]
  by_cases hne : hs.lines = []
  · simp [segs, hne]
  · rw [buf_eq_segs hne, length_append]
    omega

/-- Lines are written over the blank line at the end, with a new one behind them. -/
theorem appended (hp : hs.packed = false) {ls : List HeaderLine} {size : Nat}
    (hls : ls ≠ []) (htext : ∀ l ∈ ls, HeldText l.text) (hlast : ∀ l ∈ ls.getLast?, l.crlf = true)
    (hsize : hs.lines.length + ls.length ≤ hs.size)
    (hroom : hs.segs.flatten.length + ({ lines := ls } : Headers).buf.length < h.buf.length) :
    Holds { h with
      buf := write h.buf hs.segs.flatten.length ({ lines := ls } : Headers).buf
      bufused := hs.segs.flatten.length + ({ lines := ls } : Headers).buf.length
      headers := h.headers ++
        (starts hs.segs.flatten.length ({ lines := ls, size := size } : Headers).segs).map (h.addr + ·) }
      { hs with lines := hs.lines ++ ls } := by
  have hsegs : ({ hs with lines := hs.lines ++ ls } : Headers).segs =
      hs.segs ++ ({ lines := ls } : Headers).segs := by
    simp [segs, hp]
  have hbuf : ({ hs with lines := hs.lines ++ ls } : Headers).buf =
      hs.segs.flatten ++ ({ lines := ls } : Headers).buf := by
    rw [buf_eq_segs (by simp [hls]), buf_eq_segs hls, hsegs, flatten_append, append_assoc]
  refine ⟨?_, ?_, ?_, ?_, hh.size, ?_, hh.packed, ?_, ?_⟩
  · rw [hbuf, write, hh.take_segs]
    exact prefix_append _ _
  · rw [hbuf, length_append]
  · rw [hbuf, length_append, length_write hroom.le]
    exact hroom
  · rw [hsegs, starts_append, hh.index, map_append, Nat.zero_add]
    rfl
  · simpa using hsize
  · intro l hl
    rcases mem_append.mp hl with hl | hl
    · exact hh.text l hl
    · exact htext l hl
  · intro l hl
    rw [getLast?_append_of_ne_nil _ hls] at hl
    exact hlast l hl

variable (a : Allocator)

/-- `ci_headers_add` appends the line, or leaves the list as it is. -/
theorem add {line : List UInt8} (hline : HeldText line) :
    ∃ p h', h.add a line = .ok (p, h') ∧ ((p.isSome = true ∧ hs.packed = false ∧
          ∃ size, hs.GrowsTo size ∧
            Holds h' { hs with lines := hs.lines ++ [⟨line, true⟩], size := size }) ∨
        (p = none ∧ (hs.packed = true ∨ hs.checkSpace 1 = none ∨ a.Fails) ∧
          ∃ size, hs.GrowsTo size ∧ Holds h' { hs with size := size })) := by
  unfold HeaderBuf.add
  by_cases hp : hs.packed = true
  · rw [if_pos (hh.packed.trans hp)]
    exact ⟨none, h, rfl, .inr ⟨rfl, .inl hp, hs.size, .refl hs, hh⟩⟩
  rw [if_neg (by rw [hh.packed]; exact hp)]
  rw [Bool.not_eq_true] at hp
  have hspace := hh.checkSpace a 1 (line.length + 2)
  generalize h.checkSpace a 1 (line.length + 2) = r at hspace
  obtain ⟨ok, h1⟩ := r
  cases ok with
  | false =>
    obtain ⟨hwhy, size, hgrows, hh1⟩ := hspace
    exact ⟨none, h1, rfl, .inr ⟨rfl, .inr hwhy, size, hgrows, hh1⟩⟩
  | true =>
    obtain ⟨size, hsize, hh1, hroom⟩ := hspace
    have hlen := hh1.segs_length_le
    have hdata : ({ lines := [⟨line, true⟩] } : Headers).buf = line ++ [0, 10, 13, 10] := by
      simp [Headers.buf, Headers.lineEnd, crlf]
    have hdataLen : (line ++ [0, 10, 13, 10]).length = line.length + 4 := by simp
    have hp1 : h1.packed = false := hh1.packed.trans hp
    obtain ⟨hfit, hgrows⟩ := Headers.le_of_checkSpace hsize
    generalize hsegs : ({ hs with size := size } : Headers).segs.flatten.length = pos at *
    have happ := @appended _ _ hh1 hp [⟨line, true⟩] headerStartSize (by simp)
      (by simpa using hline) (by simp) hfit (by rw [hdata]; omega)
    rw [hdata, hdataLen] at happ
    have hidx : h1.headers.length + [h1.addr + pos].length ≤ h1.size := by
      rw [hh1.headers_length, hh1.size]
      exact hfit
    have hwrite : pos + (line ++ [0, 10, 13, 10]).length ≤ h1.buf.length := by
      omega
    have hstore : ({ h1 with bufused := pos } : HeaderBuf).store pos
        (line ++ [if h1.packed then 13 else 0, 10, 13, 10]) =
        .ok { h1 with bufused := pos, buf := write h1.buf pos (line ++ [0, 10, 13, 10]) } := by
      rw [hp1]
      exact store_of_le hwrite
    refine ⟨some (h1.addr + pos), _, ?_, .inl ⟨rfl, hp, size, hgrows, happ⟩⟩
    dsimp only
    rw [hh1.assertTerminate]
    show (h1.openEnd >>= _) = _
    rw [hh1.openEnd, hsegs]
    show (({ h1 with bufused := pos } : HeaderBuf).store pos
      (line ++ [if h1.packed then 13 else 0, 10, 13, 10]) >>= _) = _
    rw [hstore]
    show (HeaderBuf.assert (decide (pos + line.length + 4 ≤ (write h1.buf pos _).length)) >>= _) = _
    rw [length_write hwrite, assert_of_true (decide_eq_true (by omega))]
    rw [HeaderBuf.pushHeaders, if_pos hidx]
    rfl

theorem assertTerminate_open (hp : hs.packed = false) :
    ({ h with bufused := hs.segs.flatten.length } : HeaderBuf).assertTerminate = .ok h := by
  by_cases hne : hs.lines = []
  · have hsame : hs.segs.flatten.length = h.bufused := by
      rw [hh.bufused, Headers.buf, segs, hne]
      rfl
    rw [hsame]
    exact hh.assertTerminate
  obtain ⟨ls, l, hls, hbuf⟩ := Headers.buf_eq_close hne hh.last
  obtain ⟨spare, hspare⟩ := hh.buf
  rw [hp] at hbuf
  generalize hbefore : (ls.map (Headers.lineBytes false)).flatten ++ l.text = before at hbuf
  have hmem : l ∈ hs.lines := by rw [hls]; simp
  have htext := hh.text l hmem
  have hsegs : hs.segs.flatten = before ++ [0, 10] := by
    have := buf_eq_segs hne
    rw [hbuf] at this
    exact (append_left_inj crlf).mp (by rw [← this]; simp [crlf])
  have hb : h.buf = before ++ [0, 10, 13, 10] ++ spare := by
    rw [← hspare, hbuf]
    rfl
  have hlen : h.buf.length = before.length + 4 + spare.length := by
    rw [hb]
    simp only [length_append, length_cons, length_nil]
  have hdrop : h.buf.drop (before.length + 4) = spare := by
    rw [hb, show before.length + 4 = (before ++ [0, 10, 13, 10]).length by simp, drop_left]
  have hterm := @terminate_append { h with bufused := hs.segs.flatten.length } before [0, 10]
    (13 :: 10 :: spare) (by simp [hb]) (by rw [hsegs])
    (fun hnil => hne (hh.headers_eq_nil_iff.mp hnil))
    (by rw [← hbefore]; simp [htext.ne])
    (by
      rw [← hbefore, getLast?_append_of_ne_nil _ htext.ne]
      exact htext.last)
    (by decide) (hh.packed.trans hp) ?_ (by dsimp only; omega)
  · rw [hterm]
    rw [hdrop, ← hb]
    have hused : before.length + 4 = h.bufused := by
      rw [hh.bufused, hbuf, length_append]
      rfl
    rw [hused]
  · rw [← Bool.not_eq_true]
    intro hc
    obtain ⟨xs, b, hxs, -⟩ := eq_append_of_closed hc
    have hrev := congrArg reverse ((hh.take_segs.trans hsegs).symm.trans hxs)
    simp at hrev

/-- `ci_headers_addheaders` appends the lines of the other list, or leaves the list as it is. -/
theorem addHeaders {h2 : HeaderBuf} {hs2 : Headers} (hh2 : Holds h2 hs2) :
    ∃ ok h', h.addHeaders a h2 = .ok (ok, h') ∧
      ((ok = true ∧ hs.packed = false ∧ hs2.packed = false ∧ ∃ size, hs.GrowsTo size ∧
            Holds h' { hs with lines := hs.lines ++ hs2.lines, size := size }) ∨
        (ok = false ∧ (hs.packed = true ∨ hs2.packed = true ∨
            hs.checkSpace hs2.lines.length = none ∨ a.Fails) ∧
          ∃ size, hs.GrowsTo size ∧ Holds h' { hs with size := size })) := by
  unfold HeaderBuf.addHeaders
  by_cases hp : hs.packed = true
  · rw [if_pos (by simp [hh.packed, hp])]
    exact ⟨false, h, rfl, .inr ⟨rfl, .inl hp, hs.size, .refl hs, hh⟩⟩
  by_cases hp2 : hs2.packed = true
  · rw [if_pos (by simp [hh2.packed, hp2])]
    exact ⟨false, h, rfl, .inr ⟨rfl, .inr (.inl hp2), hs.size, .refl hs, hh⟩⟩
  rw [if_neg (by simp [hh.packed, hh2.packed, hp, hp2])]
  rw [Bool.not_eq_true] at hp hp2
  rw [hh2.headers_length, hh2.used]
  have hspace := hh.checkSpace a hs2.lines.length h2.bufused
  generalize h.checkSpace a hs2.lines.length h2.bufused = r at hspace
  obtain ⟨ok, h1⟩ := r
  cases ok with
  | false =>
    obtain ⟨hwhy, size, hgrows, hh1⟩ := hspace
    exact ⟨false, h1, rfl, .inr ⟨rfl, .inr (.inr hwhy), size, hgrows, hh1⟩⟩
  | true =>
    obtain ⟨size, hsize, hh1, hroom⟩ := hspace
    have hlen := hh1.segs_length_le
    obtain ⟨hfit, hgrows⟩ := Headers.le_of_checkSpace hsize
    have hused2 := hh2.bufused
    have hopen := hh1.openEnd
    have hopened := hh1.assertTerminate_open hp
    have happ := fun hne htext hlast hroom =>
      @appended _ _ hh1 hp hs2.lines headerStartSize hne htext hlast hfit hroom
    generalize hsegs : ({ hs with size := size } : Headers).segs.flatten.length = pos at *
    have hwrite : pos + hs2.buf.length ≤ h1.buf.length := by omega
    have hps : h2.headers.map (fun p => h1.addr + pos + (p - h2.addr)) =
        (starts pos hs2.segs).map (h1.addr + ·) := by
      rw [hh2.index, ← Nat.add_zero pos, starts_add]
      simp [Nat.add_assoc]
    have hstore : ({ h1 with bufused := pos } : HeaderBuf).store pos hs2.buf =
        .ok { h1 with bufused := pos, buf := write h1.buf pos hs2.buf } := store_of_le hwrite
    have hpush : ({ h1 with bufused := pos + hs2.buf.length, buf := write h1.buf pos hs2.buf } :
        HeaderBuf).pushHeaders ((starts pos hs2.segs).map (h1.addr + ·)) =
        .ok { h1 with
          bufused := pos + hs2.buf.length
          buf := write h1.buf pos hs2.buf
          headers := h1.headers ++ (starts pos hs2.segs).map (h1.addr + ·) } := by
      refine if_pos ?_
      rw [hh1.headers_length, hh1.size, length_map, length_starts, segs, length_map]
      exact hfit
    have hclose : ∃ h', ({ h1 with
          bufused := pos + hs2.buf.length
          buf := write h1.buf pos hs2.buf
          headers := h1.headers ++ (starts pos hs2.segs).map (h1.addr + ·) } :
        HeaderBuf).assertTerminate = .ok h' ∧
        Holds h' { hs with lines := hs.lines ++ hs2.lines, size := size } := by
      by_cases hne : hs2.lines = []
      · have hbuf2 : hs2.buf = [] := if_pos hne
        have hseg2 : hs2.segs = [] := by rw [segs, hne, map_nil]
        rw [hbuf2, hseg2, hne]
        refine ⟨h1, ?_, by rw [append_nil]; exact hh1⟩
        simpa [write, starts] using hopened
      · have hbuf2 : ({ lines := hs2.lines } : Headers).buf = hs2.buf := by
          simp [Headers.buf, hp2]
        have hseg2 : ({ lines := hs2.lines, size := headerStartSize } : Headers).segs = hs2.segs := by
          simp [segs, hp2]
        have hheld := happ hne hh2.text hh2.last (by rw [hbuf2]; omega)
        rw [hbuf2, hseg2] at hheld
        exact ⟨_, hheld.assertTerminate, hheld⟩
    obtain ⟨h', hterm, hheld⟩ := hclose
    refine ⟨true, h', ?_, .inl ⟨rfl, hp, hp2, size, hgrows, hheld⟩⟩
    dsimp only
    rw [hh1.assertTerminate]
    show (h1.openEnd >>= _) = _
    rw [hopen]
    show (({ h1 with bufused := pos } : HeaderBuf).store pos hs2.buf >>= _) = _
    rw [hstore]
    show (HeaderBuf.pushHeaders _ (h2.headers.map (fun p => h1.addr + pos + (p - h2.addr))) >>= _) = _
    rw [hps, hused2]
    rw [hpush]
    show (HeaderBuf.assertTerminate _ >>= _) = _
    rw [hterm]
    rfl

theorem addSelf (hne : hs.lines = []) : ∃ ok h', h.addSelf a = .ok (ok, h') ∧
      ((ok = true ∧ hs.packed = false) ∨
        (ok = false ∧ (hs.packed = true ∨ hs.checkSpace 0 = none ∨ a.Fails))) ∧
      ∃ size, hs.GrowsTo size ∧ Holds h' { hs with size := size } := by
  unfold HeaderBuf.addSelf
  by_cases hp : hs.packed = true
  · rw [if_pos (hh.packed.trans hp)]
    exact ⟨false, h, rfl, .inr ⟨rfl, .inl hp⟩, hs.size, .refl hs, hh⟩
  rw [if_neg (by rw [hh.packed]; exact hp)]
  rw [Bool.not_eq_true] at hp
  have hzero : h.headers.length = 0 := by rw [hh.headers_length, hne, length_nil]
  rw [hzero]
  have hspace := hh.checkSpace a 0 h.bufused
  generalize h.checkSpace a 0 h.bufused = r at hspace
  obtain ⟨ok, h1⟩ := r
  cases ok with
  | false =>
    obtain ⟨hwhy, size, hgrows, hh1⟩ := hspace
    exact ⟨false, h1, rfl, .inr ⟨rfl, .inr hwhy⟩, size, hgrows, hh1⟩
  | true =>
    obtain ⟨size, hsize, hh1, -⟩ := hspace
    refine ⟨true, h1, ?_, .inl ⟨rfl, hp⟩, size, (Headers.le_of_checkSpace hsize).2, hh1⟩
    have hnil : h1.headers = [] := hh1.headers_eq_nil_iff.mpr hne
    dsimp only
    rw [hh1.assertTerminate]
    show (h1.openEnd >>= _) = _
    rw [hh1.openEnd]
    show (if h1.headers ≠ [] then Except.error Fault.memory else _) = _
    rw [if_neg (not_not.mpr hnil), hh1.assertTerminate_open hp]
    rfl

/-! ## Making lists -/

theorem reset : Holds h.reset hs.reset := by
  refine ⟨ nil_prefix, rfl, ?_, rfl, hh.size, Nat.zero_le _, rfl, nofun, nofun⟩
  exact lt_of_le_of_lt (Nat.zero_le _) hh.spare

end

theorem create2 (a : Allocator) {num bufSize : Nat} (hnum : 0 < num) (hbuf : 0 < bufSize) :
    ∃ r, HeaderBuf.create2 a num bufSize = .ok r ∧
      ((r = none ∧ ¬ (a.object = true ∧ a.index num = true ∧ (a.buffer bufSize).isSome = true)) ∨
        ∃ h, r = some h ∧ h.buf.length = bufSize ∧ Holds h { size := num }) := by
  unfold HeaderBuf.create2
  rw [assert_of_true (decide_eq_true hnum), assert_of_true (decide_eq_true hbuf)]
  cases hobj : a.object with
  | false => exact ⟨none, rfl, .inl ⟨rfl, by simp⟩⟩
  | true =>
    cases hidx : a.index num with
    | false => exact ⟨none, rfl, .inl ⟨rfl, by simp⟩⟩
    | true =>
      cases hmem : a.buffer bufSize with
      | none => exact ⟨none, rfl, .inl ⟨rfl, by simp⟩⟩
      | some m =>
        refine ⟨_, rfl, .inr ⟨_, rfl, by simp, ?_⟩⟩
        refine ⟨ nil_prefix, rfl, ?_, rfl, rfl, Nat.zero_le _, rfl, nofun, nofun⟩
        rw [length_map, length_range]
        exact hbuf

/-- `ci_headers_clone` copies the list, when there is memory for the copy. -/
theorem clone (hh : Holds h hs) (hsize : 0 < hs.size) {a : Allocator} (ha : h.CanClone a) :
    ∃ h', h.clone a = .ok h' ∧ Holds h' hs := by
  have hpos : 0 < h.buf.length := lt_of_le_of_lt (Nat.zero_le _) hh.spare
  obtain ⟨r, hr, ⟨-, hnone⟩ | ⟨c, rfl, hlen, hc⟩⟩ := create2 a hsize hpos
  · rw [← hh.size] at hnone
    exact absurd ha hnone
  unfold HeaderBuf.clone
  rw [hh.size, hr, hh.used]
  have hstore : c.store 0 hs.buf = .ok { c with buf := write c.buf 0 hs.buf } :=
    store_of_le (by have := hh.spare; omega)
  refine ⟨_, by show (c.store 0 hs.buf >>= _) = _; rw [hstore]; rfl, ?_⟩
  refine ⟨?_, hh.bufused, ?_, ?_, hc.size, hh.room, hh.packed, hh.text, hh.last⟩
  · exact prefix_append _ _
  · rw [length_write (by have := hh.spare; omega), hlen]
    exact hh.spare
  · rw [hh.index]
    simp

end Holds

end CIcap
