import CIcap.Header.Block
import Mathlib.Data.List.TakeWhile

/-! # Accesses to the header buffer

`unpack` and `terminate` look at bytes through lists. Here each access of `ci_headers_unpack` and
`headers_terminate` is made at its position and has to lie in the buffer, and each pointer has to lie in
the index (`Checked`). The two agree (`Checked.unpack_eq`).

The loop of `headers_terminate` that goes back over line ends has no stop at the beginning of the buffer.
A block on which it gets there is read in front of the buffer; `unpack_inside_iff` says which blocks do not
lead there.
-/

namespace CIcap

open CText Segments HeaderBuf List

namespace HeaderBuf

namespace Checked

/-- The comparisons at the beginning of `headers_terminate`. -/
def needsFix (h : HeaderBuf) : Except Fault Bool :=
  if h.bufused < 4 then .ok true
  else do
    let e ← h.byte (h.bufused - 1)
    if e ≠ 10 then .ok true
    else do
      let d ← h.byte (h.bufused - 2)
      if d ≠ 13 then .ok true
      else do
        let c ← h.byte (h.bufused - 3)
        if c ≠ 10 then .ok true
        else do
          let b ← h.byte (h.bufused - 4)
          .ok (b ≠ 13 && b ≠ 0)

/-- The loop of `headers_terminate` with `bufused - i` bytes left: its condition admits the position in
front of the buffer. -/
def keptBytes (h : HeaderBuf) : Nat → Except Fault Nat
  | 0 => .error .memory
  | n + 1 => do
      let b ← h.byte n
      if endByte b then keptBytes h n else .ok (n + 1)

/-- `headers_terminate` -/
def terminate (h : HeaderBuf) : Except Fault (Bool × HeaderBuf) :=
  if h.headers = [] then .ok (true, { h with bufused := 0 })
  else do
    let fix ← needsFix h
    if !fix then .ok (true, h)
    else do
      let kept ← keptBytes h h.bufused
      if h.buf.length < kept + 4 then .ok (false, h)
      else do
        let h ← h.store kept [if h.packed then 13 else 0, 10, 13, 10]
        return (true, { h with bufused := kept + 4 })

/-- `assert(headers_terminate(h))` -/
def assertTerminate (h : HeaderBuf) : Except Fault HeaderBuf := do
  let (ok, h) ← terminate h
  assert ok
  return h

/-- The loop that moves `ebuf` back over line ends. -/
def stripEnds (h : HeaderBuf) : Nat → Except Fault Nat
  | 0 => .ok 0
  | 1 => .ok 1
  | e + 2 => do
      let b ← h.byte (e + 1)
      if isEol b then stripEnds h (e + 1) else .ok (e + 2)

/-- The test for the end of a header. -/
def endOfHeader (h : HeaderBuf) (ebuf str : Nat) : Except Fault Bool := do
  let b ← h.byte str
  let crlf ← if b = 13 then (do let c ← h.byte (str + 1); pure (decide (c = 10))) else pure false
  if crlf then
    if ebuf ≤ str + 2 then pure true
    else do
      let c ← h.byte (str + 2)
      pure (c ≠ 9 && c ≠ 32)
  else if b = 10 then do
    let c ← h.byte (str + 1)
    pure (c ≠ 9 && c ≠ 32)
  else pure false

/-- The loop of `ci_headers_unpack`. -/
def scan (a : Allocator) (ebuf : Nat) : Nat → HeaderBuf → Nat → Except Fault (Bool × HeaderBuf)
  | 0, h, _ => .ok (true, h)
  | fuel + 1, h, str =>
    if str < ebuf then do
      let eoh ← endOfHeader h ebuf str
      if eoh then do
        let h ← h.store str [0]
        if h.size ≤ h.headers.length ∧ !a.index (h.size + headerStartSize) then .ok (false, h)
        else do
          let size := if h.size ≤ h.headers.length then h.size + headerStartSize else h.size
          let b ← h.byte (str + 1)
          let next := if b = 10 then str + 2 else str + 1
          let h ← { h with size := size }.pushHeaders [h.addr + next]
          scan a ebuf fuel h (next + 1)
      else do
        let b ← h.byte str
        if b = 0 then do
          let h ← h.store str [32]
          scan a ebuf fuel h (str + 1)
        else scan a ebuf fuel h (str + 1)
    else .ok (true, h)

/-- `ci_headers_unpack` -/
def unpack (a : Allocator) (h : HeaderBuf) : Except Fault (Ec × HeaderBuf) := do
  let unParsed := 0 < h.bufused && h.headers = []
  if !h.packed && !unParsed then return (.ec100, h)
  if h.bufused < 2 then return (.ec400, h)
  let b ← h.byte (h.bufused - 2)
  if !isEol b then return (.ec400, h)
  let ebuf ← stripEnds h (h.bufused - 2)
  let h ← h.store ebuf [0]
  let h ← { h with headers := [] }.pushHeaders [h.addr]
  match ← scan a ebuf ebuf h 0 with
  | (false, h) => return (.ec500, h)
  | (true, h) =>
    let h := { h with packed := false }
    let h := (h.checkSpace a 0 0).2
    let h ← assertTerminate h
    return (.ec100, h)

end Checked

/-! ## The accesses lie in the buffer -/

variable {h : HeaderBuf} {a : Allocator}

theorem byte_eq {pos : Nat} (hpos : pos < h.buf.length) : h.byte pos = .ok (h.buf.getD pos 0) := by
  unfold byte
  rw [getD_eq_getElem?_getD, getElem?_eq_getElem hpos]
  rfl

theorem store_one {pos : Nat} (hpos : pos < h.buf.length) (b : UInt8) :
    h.store pos [b] = .ok { h with buf := h.buf.set pos b } := by
  have hwrite : write h.buf pos [b] = h.buf.set pos b := by
    rw [write, set_eq_take_append_cons_drop, if_pos hpos]
    simp
  rw [store, if_pos (by simpa using hpos), hwrite]

namespace Checked

variable {h : HeaderBuf}

theorem stripEnds_eq (e : Nat) (he : e ≤ h.buf.length) :
    stripEnds h e = .ok (HeaderBuf.stripEnds h.buf e) := by
  induction e using Nat.strong_induction_on with
  | _ e ih =>
    match e, he with
    | 0, _ | 1, _ => rfl
    | e + 2, he =>
      rw [stripEnds, HeaderBuf.stripEnds, byte_eq (by omega)]
      show (if isEol (h.buf.getD (e + 1) 0) = true then _ else _) = _
      rw [ih (e + 1) (by omega) (by omega)]
      split <;> rfl

theorem endOfHeader_eq {ebuf str : Nat} (hstr : str < ebuf) (hebuf : ebuf < h.buf.length) :
    endOfHeader h ebuf str = .ok (HeaderBuf.endOfHeader h.buf ebuf str) := by
  unfold endOfHeader HeaderBuf.endOfHeader
  rw [byte_eq (by omega : str < h.buf.length), byte_eq (by omega : str + 1 < h.buf.length)]
  generalize h.buf.getD str 0 = b
  generalize h.buf.getD (str + 1) 0 = c
  by_cases hend : ebuf ≤ str + 2
  swap
  rw [byte_eq (by omega : str + 2 < h.buf.length)]
  all_goals
    by_cases h13 : b = 13
    · by_cases h10 : c = 10 <;> simp [h13, h10, hend, bind, Except.bind, pure, Except.pure]
    · by_cases h10 : b = 10 <;> simp [h13, h10, bind, Except.bind, pure, Except.pure]

/-- The loop stays in the buffer and in the index. -/
theorem scan_eq (a : Allocator) {ebuf : Nat} (fuel : Nat) : ∀ {h : HeaderBuf} {str : Nat},
    ebuf < h.buf.length → h.headers.length ≤ h.size →
    scan a ebuf fuel h str = .ok (HeaderBuf.scan a ebuf fuel h str) := by
  induction fuel with
  | zero =>
    intro h str _ _
    rfl
  | succ fuel ih =>
    intro h str hebuf hroom
    have hstep : headerStartSize = 64 := rfl
    by_cases hlt : str < ebuf
    · rw [scan, if_pos hlt, endOfHeader_eq hlt hebuf]
      show (if HeaderBuf.endOfHeader h.buf ebuf str = true then _ else _) = _
      by_cases heoh : HeaderBuf.endOfHeader h.buf ebuf str = true
      · rw [if_pos heoh, scan_end hlt heoh, store_one (by omega)]
        show (if h.size ≤ h.headers.length ∧ (!a.index (h.size + headerStartSize)) = true then _ else _) = _
        split
        · rfl
        rw [byte_eq (by simp only [length_set]; omega)]
        show (pushHeaders { h with
          buf := h.buf.set str 0
          size := if h.size ≤ h.headers.length then h.size + headerStartSize else h.size } _ >>= _) = _
        rw [pushHeaders, if_pos]
        · refine ih ?_ ?_
          · simp only [length_set]
            exact hebuf
          · simp only [length_append, length_singleton]
            split <;> omega
        · simp only [length_singleton]
          split <;> omega
      · rw [if_neg heoh, scan_next hlt (by simpa using heoh), byte_eq (by omega)]
        show (if h.buf.getD str 0 = 0 then _ else _) = _
        split
        · rw [store_one (by omega)]
          refine ih ?_ hroom
          simp only [length_set]
          exact hebuf
        · exact ih hebuf hroom
    · rw [scan, if_neg hlt, scan_done (by omega)]

theorem needsFix_eq (hfits : h.bufused ≤ h.buf.length) : needsFix h = .ok (!h.closed) := by
  unfold needsFix closed
  by_cases hlt : h.bufused < 4
  · rw [if_pos hlt]
    have hlen : ((h.buf.take h.bufused).drop (h.bufused - 4)).length = h.bufused := by
      rw [length_drop, length_take]
      omega
    split
    · rename_i heq
      rw [heq] at hlen
      simp only [length_cons] at hlen
      omega
    · rfl
  · rw [if_neg hlt]
    have hlen : ((h.buf.take h.bufused).drop (h.bufused - 4)).length = 4 := by
      rw [length_drop, length_take]
      omega
    obtain ⟨b, c, d, e, heq⟩ : ∃ b c d e, (h.buf.take h.bufused).drop (h.bufused - 4) = [b, c, d, e] := by
      match (h.buf.take h.bufused).drop (h.bufused - 4), hlen with
      | [b, c, d, e], _ => exact ⟨b, c, d, e, rfl⟩
    have hat : ∀ i < 4, h.byte (h.bufused - (4 - i)) = .ok ([b, c, d, e].getD i 0) := by
      intro i hi
      rw [byte_eq (by omega), ← heq, getD_eq_getElem?_getD, getD_eq_getElem?_getD, getElem?_drop,
        getElem?_take_of_lt (by omega), show h.bufused - (4 - i) = h.bufused - 4 + i by omega]
    have he : h.byte (h.bufused - 1) = .ok e := hat 3 (by omega)
    have hd : h.byte (h.bufused - 2) = .ok d := hat 2 (by omega)
    have hc : h.byte (h.bufused - 3) = .ok c := hat 1 (by omega)
    have hb : h.byte (h.bufused - 4) = .ok b := hat 0 (by omega)
    rw [heq, he, hd, hc, hb]
    by_cases h1 : e = 10
    · by_cases h2 : d = 13
      · by_cases h3 : c = 10 <;> simp [h1, h2, h3, bind, Except.bind]
      · simp [h2, bind, Except.bind]
    · simp [h1, bind, Except.bind]

/-- The loop stops at the last byte that is not a line end, if there is one. -/
theorem keptBytes_eq (n : Nat) (hn : n ≤ h.buf.length) : keptBytes h n =
      if ((h.buf.take n).reverse.dropWhile endByte).length = 0 then .error .memory
      else .ok ((h.buf.take n).reverse.dropWhile endByte).length := by
  induction n with
  | zero => rfl
  | succ n ih =>
    have htake : (h.buf.take (n + 1)).reverse = h.buf.getD n 0 :: (h.buf.take n).reverse := by
      rw [getD_eq_getElem?_getD, getElem?_eq_getElem (by omega)]
      simp
    rw [keptBytes, byte_eq (by omega), htake]
    show (if endByte (h.buf.getD n 0) = true then _ else _) = _
    by_cases hend : endByte (h.buf.getD n 0) = true
    · rw [if_pos hend, dropWhile_cons_of_pos hend]
      exact ih (by omega)
    · rw [if_neg hend, dropWhile_cons_of_neg hend, length_cons, length_reverse,
        length_take, Nat.min_eq_left (by omega), if_neg (by omega)]

theorem terminate_eq (hfits : h.bufused ≤ h.buf.length) : terminate h = h.terminate := by
  unfold terminate HeaderBuf.terminate
  split
  · rfl
  rw [needsFix_eq hfits, keptBytes_eq _ hfits]
  cases h.closed with
  | true => rfl
  | false =>
    by_cases hzero : ((h.buf.take h.bufused).reverse.dropWhile endByte).length = 0
    · simp only [hzero]
      rfl
    · simp only [hzero]
      rfl

end Checked

/-! ## The block in the buffer -/

/-- The list is in use or empty: `ci_headers_unpack` has nothing to do. -/
def Parsed (h : HeaderBuf) : Prop := h.packed = false ∧ (h.bufused = 0 ∨ h.headers ≠ [])

instance (h : HeaderBuf) : Decidable h.Parsed := inferInstanceAs (Decidable (_ ∧ _))

/-- The block is refused: it is too short, or its last byte but one is not of a line end. -/
def Refused (h : HeaderBuf) : Prop := h.bufused < 2 ∨ isEol (h.buf.getD (h.bufused - 2) 0) = false

instance (h : HeaderBuf) : Decidable h.Refused := inferInstanceAs (Decidable (_ ∨ _))

/-- `ebuf`: where the line ends at the end of the block begin. -/
def blockEnd (h : HeaderBuf) : Nat := stripEnds h.buf (h.bufused - 2)

/-- The buffer before the loop of `ci_headers_unpack`. -/
def opened (h : HeaderBuf) : HeaderBuf :=
  { h with buf := h.buf.set h.blockEnd 0, headers := [h.addr] }

/-- What follows the loop. -/
def close (a : Allocator) (h : HeaderBuf) : HeaderBuf := ({ h with packed := false }.checkSpace a 0 0).2

theorem stripEnds_le (buf : List UInt8) (e : Nat) : stripEnds buf e ≤ e := by
  induction e using Nat.strong_induction_on with
  | _ e ih =>
    match e with
    | 0 => exact le_refl 0
    | 1 => exact le_refl 1
    | e + 2 =>
      rw [stripEnds]
      split
      · exact (ih (e + 1) (by omega)).trans (by omega)
      · exact le_refl _

theorem scan_frame (a : Allocator) {ebuf : Nat} (fuel : Nat) : ∀ (h : HeaderBuf) (str : Nat),
    (scan a ebuf fuel h str).2.bufused = h.bufused ∧
      (scan a ebuf fuel h str).2.buf.length = h.buf.length := by
  induction fuel with
  | zero =>
    intro h str
    exact ⟨rfl, rfl⟩
  | succ fuel ih =>
    intro h str
    by_cases hlt : str < ebuf
    · cases heoh : endOfHeader h.buf ebuf str with
      | true =>
        rw [scan_end hlt heoh]
        split
        · exact ⟨rfl, length_set⟩
        · have := ih { h with
            buf := h.buf.set str 0
            size := if h.size ≤ h.headers.length then h.size + headerStartSize else h.size
            headers := h.headers ++ [h.addr +
              if (h.buf.set str 0).getD (str + 1) 0 = 10 then str + 2 else str + 1] }
            ((if (h.buf.set str 0).getD (str + 1) 0 = 10 then str + 2 else str + 1) + 1)
          exact ⟨this.1, this.2.trans length_set⟩
      | false =>
        rw [scan_next hlt heoh]
        have := ih { h with buf := if h.buf.getD str 0 = 0 then h.buf.set str 32 else h.buf } (str + 1)
        refine ⟨this.1, this.2.trans ?_⟩
        split
        · exact length_set
        · rfl
    · rw [scan_done (by omega)]
      exact ⟨rfl, rfl⟩

/-- `headers_check_space` leaves the bytes and the pointers there are. -/
theorem close_frame (a : Allocator) (h : HeaderBuf) : (∃ more, (h.close a).buf = h.buf ++ more) ∧
    (h.close a).bufused = h.bufused ∧ (h.close a).headers.length = h.headers.length := by
  obtain ⟨ok, size, h', heq, hspaced, -⟩ := checkSpace_cases a { h with packed := false } 0 0
  rw [close, heq]
  exact ⟨hspaced.frame.1, hspaced.frame.2.1, hspaced.frame.2.2.2.1⟩

theorem pushHeaders_first (h : HeaderBuf) (p : Nat) :
    { h with headers := [] }.pushHeaders [p] =
      if 0 < h.size then .ok { h with headers := [p] } else .error .memory := rfl

theorem parsed_iff (h : HeaderBuf) :
    h.Parsed ↔ (!h.packed && !(0 < h.bufused && h.headers = [])) = true := by
  unfold Parsed
  cases h.packed <;> simp [Nat.pos_iff_ne_zero]

theorem unpack_of_parsed (hp : h.Parsed) : h.unpack a = .ok (.ec100, h) := by
  unfold unpack
  rw [if_pos ((parsed_iff h).mp hp)]
  rfl

section

variable (hfits : h.bufused ≤ h.buf.length)
include hfits

theorem unpack_of_refused (hp : ¬ h.Parsed) (hr : h.Refused) : h.unpack a = .ok (.ec400, h) := by
  unfold unpack
  rw [if_neg fun hc => hp ((parsed_iff h).mpr hc)]
  by_cases hshort : h.bufused < 2
  · rw [if_pos hshort]
    rfl
  · rw [if_neg hshort, byte_eq (by omega)]
    show (if (!isEol (h.buf.getD (h.bufused - 2) 0)) = true then _ else _) = _
    rw [if_pos (by rw [hr.resolve_left hshort]; rfl)]
    rfl

/-- The steps of `ci_headers_unpack` on a block it accepts. -/
theorem unpack_eq_scan (hsize : 0 < h.size) (hp : ¬ h.Parsed) (hr : ¬ h.Refused) : h.unpack a =
      match scan a h.blockEnd h.blockEnd h.opened 0 with
      | (false, h) => .ok (.ec500, h)
      | (true, h) => do
          let h ← (h.close a).assertTerminate
          return (.ec100, h) := by
  obtain ⟨hlong, heol⟩ := not_or.mp hr
  have hend := stripEnds_le h.buf (h.bufused - 2)
  unfold unpack
  rw [if_neg fun hc => hp ((parsed_iff h).mpr hc), if_neg hlong, byte_eq (by omega)]
  show (if (!isEol (h.buf.getD (h.bufused - 2) 0)) = true then _ else _) = _
  rw [if_neg (by simpa using heol)]
  show (HeaderBuf.store h h.blockEnd [0] >>= _) = _
  rw [store_one (by unfold blockEnd; omega)]
  show (pushHeaders { { h with buf := h.buf.set h.blockEnd 0 } with headers := [] } [h.addr] >>= _) = _
  rw [pushHeaders_first, if_pos hsize]
  rfl

/-- The two forms of `ci_headers_unpack` agree. -/
theorem Checked.unpack_eq : Checked.unpack a h = h.unpack a := by
  have hend := stripEnds_le h.buf (h.bufused - 2)
  unfold Checked.unpack HeaderBuf.unpack
  by_cases hp : (!h.packed && !(0 < h.bufused && h.headers = [])) = true
  · rw [if_pos hp, if_pos hp]
  rw [if_neg hp, if_neg hp]
  by_cases hshort : h.bufused < 2
  · rw [if_pos hshort, if_pos hshort]
  rw [if_neg hshort, if_neg hshort, byte_eq (by omega)]
  show (if (!isEol (h.buf.getD (h.bufused - 2) 0)) = true then _ else _) =
    (if (!isEol (h.buf.getD (h.bufused - 2) 0)) = true then _ else _)
  by_cases heol : (!isEol (h.buf.getD (h.bufused - 2) 0)) = true
  · rw [if_pos heol, if_pos heol]
  rw [if_neg heol, if_neg heol, Checked.stripEnds_eq _ (by omega)]
  show (HeaderBuf.store h h.blockEnd [0] >>= _) = (HeaderBuf.store h h.blockEnd [0] >>= _)
  have hin : h.blockEnd < h.buf.length := by
    unfold blockEnd
    omega
  rw [store_one hin]
  show (pushHeaders { { h with buf := h.buf.set h.blockEnd 0 } with headers := [] } [h.addr] >>= _) =
    (pushHeaders { { h with buf := h.buf.set h.blockEnd 0 } with headers := [] } [h.addr] >>= _)
  rw [pushHeaders_first]
  by_cases hsize : 0 < h.size
  · rw [if_pos hsize]
    show (Checked.scan a h.blockEnd h.blockEnd h.opened 0 >>= _) = _
    have hroom : h.opened.headers.length ≤ h.opened.size := hsize
    have hbuf : h.blockEnd < h.opened.buf.length := by
      show h.blockEnd < (h.buf.set h.blockEnd 0).length
      rwa [length_set]
    rw [Checked.scan_eq a _ hbuf hroom]
    show (match HeaderBuf.scan a h.blockEnd h.blockEnd h.opened 0 with | (false, h) => _ | (true, h) => _) =
      (match HeaderBuf.scan a h.blockEnd h.blockEnd h.opened 0 with | (false, h) => _ | (true, h) => _)
    have hframe := @scan_frame a h.blockEnd h.blockEnd h.opened 0
    match hscan : HeaderBuf.scan a h.blockEnd h.blockEnd h.opened 0 with
    | (false, h') => rfl
    | (true, h') =>
      rw [hscan] at hframe
      obtain ⟨⟨more, hmore⟩, hused, -⟩ := close_frame a h'
      dsimp only
      rw [Checked.assertTerminate, ← close, Checked.terminate_eq]
      · rfl
      · have hlen : h'.buf.length = h.buf.length := hframe.2.trans length_set
        have hbuf : h'.bufused = h.bufused := hframe.1
        rw [hmore, length_append]
        omega
  · rw [if_neg hsize]
    rfl

end

/-! ## Blocks that are terminated in the buffer -/

/-- The lines that `ci_headers_unpack` finds in the block. -/
def blockLines (h : HeaderBuf) : List HeaderLine := Headers.scanLines [] (h.buf.take h.blockEnd)

/-- The block can be terminated: one of its lines, or its last byte, is more than line ends and zeros, or
it ends with an empty line that is left when the first of its line ends is replaced. -/
def Terminable (h : HeaderBuf) : Prop :=
  (∃ l ∈ h.blockLines, ∃ b ∈ l.text, endByte b = false) ∨
    endByte (h.buf.getD (h.bufused - 1) 0) = false ∨
    { h with buf := h.buf.set h.blockEnd 0 }.closed = true

instance (h : HeaderBuf) : Decidable h.Terminable := inferInstanceAs (Decidable (_ ∨ _ ∨ _))

theorem terminate_memory_iff (hne : h.headers ≠ []) :
    h.terminate = .error .memory ↔ h.closed = false ∧ ∀ b ∈ h.buf.take h.bufused, endByte b = true := by
  have hkept : ((h.buf.take h.bufused).reverse.dropWhile endByte).length = 0 ↔
      ∀ b ∈ h.buf.take h.bufused, endByte b = true := by
    rw [length_eq_zero_iff, dropWhile_eq_nil_iff]
    simp only [mem_reverse]
  unfold terminate
  rw [if_neg hne]
  cases h.closed with
  | true => simp
  | false =>
    rw [if_neg (by simp), ← hkept]
    by_cases hzero : ((h.buf.take h.bufused).reverse.dropWhile endByte).length = 0
    · simp [hzero]
    · rw [if_neg hzero]
      refine ⟨fun hc => ?_, fun hc => absurd hc.2 hzero⟩
      split at hc
      · cases hc
      · rw [store, if_pos (by simp; omega)] at hc
        cases hc

/-- The bytes at the end of the block, from `ebuf` up to the last one, are line ends. -/
theorem isEol_of_blockEnd_le (buf : List UInt8) (e : Nat) :
    ∀ i, stripEnds buf e ≤ i → i < e → isEol (buf.getD i 0) = true := by
  induction e using Nat.strong_induction_on with
  | _ e ih =>
    intro i hle hlt
    match e with
    | 0 => omega
    | 1 =>
      rw [stripEnds] at hle
      omega
    | e + 2 =>
      rw [stripEnds] at hle
      split at hle
      · rename_i heol
        by_cases hi : i = e + 1
        · rw [hi]
          exact heol
        · exact ih (e + 1) (by omega) i hle (by omega)
      · omega

theorem endByte_of_isEol {b : UInt8} (h : isEol b = true) : endByte b = true := by
  unfold isEol at h
  unfold endByte
  rw [h, Bool.true_or]

/-- The bytes of lines are those of their texts and ends. -/
theorem mem_lineJoin_endByte (ks : List HeaderLine) :
    (∀ b ∈ lineJoin ks, endByte b = true) ↔ ∀ l ∈ ks, ∀ b ∈ l.text, endByte b = true := by
  induction ks with
  | nil => simp [lineJoin]
  | cons k ks ih =>
    have hcons : lineJoin (k :: ks) = Headers.lineBytes false k ++ lineJoin ks := rfl
    have hends : ∀ b ∈ Headers.lineEnd false k.crlf, endByte b = true := by
      unfold Headers.lineEnd
      cases k.crlf <;> simp [endByte]
    rw [hcons]
    simp only [mem_append, or_imp, forall_and, ih, forall_mem_cons]
    refine and_congr_left fun _ => ?_
    unfold Headers.lineBytes
    simp only [mem_append, or_imp, forall_and]
    exact ⟨fun h => h.1, fun h => ⟨h, hends⟩⟩

/-- The bytes end with an empty line. -/
def EndsClosed (b : List UInt8) : Prop := ∃ xs c, b = xs ++ [c, 10, 13, 10] ∧ (c = 13 ∨ c = 0)

theorem closed_iff (hfits : h.bufused ≤ h.buf.length) :
    h.closed = true ↔ EndsClosed (h.buf.take h.bufused) := by
  constructor
  · intro hc
    obtain ⟨xs, c, heq, hcases⟩ := eq_append_of_closed hc
    exact ⟨xs, c, heq, hcases⟩
  · rintro ⟨xs, c, heq, hc⟩
    have hlen : h.bufused - 4 = xs.length := by
      have := congrArg length heq
      rw [length_take, length_append] at this
      simp only [length_cons, length_nil] at this
      omega
    unfold closed
    rw [heq, hlen, drop_left]
    rcases hc with rfl | rfl <;> rfl

/-- Whether the bytes end with an empty line is decided behind the zero at `ebuf`. -/
theorem endsClosed_append {t : List UInt8} (ht : t ≠ []) (x : List UInt8) :
    EndsClosed (x ++ 0 :: t) ↔ EndsClosed (0 :: t) := by
  constructor
  · rintro ⟨xs, c, heq, hc⟩
    have hsuffix : [c, 10, 13, 10] <:+ x ++ 0 :: t := ⟨xs, heq.symm⟩
    have hzero : 0 :: t <:+ x ++ 0 :: t := suffix_append x (0 :: t)
    have hpos := length_pos_iff.mpr ht
    rcases Nat.lt_or_ge (0 :: t).length 4 with hlt | hge
    · -- the zero would be one of the last three bytes
      obtain ⟨zs, hz⟩ := suffix_of_suffix_length_le hzero hsuffix (by simpa using hlt.le)
      have hlen := congrArg length hz
      simp only [length_append, length_cons, length_nil] at hlen hlt
      match zs, hz with
      | [], _ =>
        simp only [length_nil] at hlen
        omega
      | [_], hz | [_, _], hz => simp at hz
      | _ :: _ :: _ :: zs, _ =>
        simp only [length_cons] at hlen
        omega
    · obtain ⟨zs, hz⟩ := suffix_of_suffix_length_le hsuffix hzero (by simpa using hge)
      exact ⟨zs, c, hz.symm, hc⟩
  · rintro ⟨xs, c, heq, hc⟩
    exact ⟨x ++ xs, c, by rw [heq, append_assoc], hc⟩

/-- The part of the block behind `ebuf` has nothing but line ends, its last byte apart. -/
theorem tail_endByte_iff (hfits : h.bufused ≤ h.buf.length) (hr : ¬ h.Refused) :
    (∀ b ∈ (h.buf.drop (h.blockEnd + 1)).take (h.bufused - h.blockEnd - 1), endByte b = true) ↔
      endByte (h.buf.getD (h.bufused - 1) 0) = true := by
  obtain ⟨hlong, heol⟩ := not_or.mp hr
  have hend : h.blockEnd ≤ h.bufused - 2 := stripEnds_le h.buf (h.bufused - 2)
  have hat : ∀ i, i < h.bufused - h.blockEnd - 1 →
      ((h.buf.drop (h.blockEnd + 1)).take (h.bufused - h.blockEnd - 1))[i]? =
        some (h.buf.getD (h.blockEnd + 1 + i) 0) := by
    intro i hi
    rw [getElem?_take_of_lt hi, getElem?_drop, getElem?_eq_getD (by omega) 0]
  constructor
  · intro hall
    have hlast := hat (h.bufused - h.blockEnd - 2) (by omega)
    rw [show h.blockEnd + 1 + (h.bufused - h.blockEnd - 2) = h.bufused - 1 by omega] at hlast
    exact hall _ (mem_of_getElem? hlast)
  · intro hlast b hb
    obtain ⟨i, hi⟩ := getElem?_of_mem hb
    have hlt : i < h.bufused - h.blockEnd - 1 := by
      have := (List.getElem?_eq_some_iff.mp hi).1
      rw [length_take] at this
      omega
    rw [hat i hlt, Option.some.injEq] at hi
    rw [← hi]
    rcases Nat.lt_or_ge (h.blockEnd + 1 + i) (h.bufused - 2) with hi2 | hi2
    · exact endByte_of_isEol (isEol_of_blockEnd_le _ _ _ (by unfold blockEnd; omega) hi2)
    · rcases Nat.lt_or_ge (h.blockEnd + 1 + i) (h.bufused - 1) with hi1 | hi1
      · rw [show h.blockEnd + 1 + i = h.bufused - 2 by omega]
        exact endByte_of_isEol (by simpa using heol)
      · rw [show h.blockEnd + 1 + i = h.bufused - 1 by omega]
        exact hlast

/-- The used bytes behind the loop: the lines with zeros for their ends, and the end of the block. -/
structure Scanned (h h' : HeaderBuf) (ks : List HeaderLine) (k : HeaderLine) : Prop where
  lines : h.blockLines = ks ++ [k]
  used : h'.bufused = h.bufused
  fits : h'.bufused ≤ h'.buf.length
  index : h'.headers ≠ []
  room : h'.headers.length ≤ h'.size
  bytes : h'.buf.take h'.bufused =
    lineJoin ks ++ k.text ++ 0 :: (h.buf.drop (h.blockEnd + 1)).take (h.bufused - h.blockEnd - 1)

theorem scan_opened (hfits : h.bufused ≤ h.buf.length) (hsize : 0 < h.size) (hr : ¬ h.Refused) :
    (∃ h', scan a h.blockEnd h.blockEnd h.opened 0 = (false, h') ∧ a.Fails) ∨
      ∃ h' ks k, scan a h.blockEnd h.blockEnd h.opened 0 = (true, h') ∧ h.Scanned h' ks k := by
  obtain ⟨hlong, -⟩ := not_or.mp hr
  have hend : h.blockEnd ≤ h.bufused - 2 := stripEnds_le h.buf (h.bufused - 2)
  have hset : h.buf.set h.blockEnd 0 = h.buf.take h.blockEnd ++ 0 :: h.buf.drop (h.blockEnd + 1) := by
    rw [set_eq_take_append_cons_drop, if_pos (by omega)]
  have hat : ScanAt h.opened h.opened [] [] (h.buf.take h.blockEnd) (h.buf.drop (h.blockEnd + 1)) :=
    ⟨hset, rfl, hsize, rfl, rfl, rfl⟩
  have hlen : (h.buf.take h.blockEnd).length = h.blockEnd := length_take_of_le (by omega)
  rcases @ScanAt.run a _ _ _ _ _ _ hat h.blockEnd h.blockEnd (by rw [hlen]; exact (Nat.zero_add _).symm)
    hlen.le with ⟨h', hscan, hfail⟩ | ⟨h', ks, k, hscan, hlines, hat'⟩
  · exact .inl ⟨h', hscan, hfail⟩
  have hframe := @scan_frame a h.blockEnd h.blockEnd h.opened 0
  have hscan0 : scan a h.blockEnd h.blockEnd h.opened 0 = (true, h') := hscan
  rw [hscan0] at hframe
  obtain ⟨hused, hbuflen⟩ : h'.bufused = h.bufused ∧ h'.buf.length = h.buf.length :=
    ⟨hframe.1, hframe.2.trans length_set⟩
  have hbuf : h'.buf = lineJoin ks ++ k.text ++ 0 :: h.buf.drop (h.blockEnd + 1) := hat'.buf
  have hbody : (lineJoin ks ++ k.text).length = h.blockEnd := by
    have := congrArg length hbuf
    rw [@length_append _ (lineJoin ks ++ k.text), length_cons, length_drop] at this
    omega
  refine .inr ⟨h', ks, k, hscan0, ⟨hlines, hused, by omega, ?_, hat'.room, ?_⟩⟩
  · rw [hat'.index]
    simp
  · rw [hbuf, hused, take_append, take_of_length_le (by omega), hbody, show h.bufused - h.blockEnd = (h.bufused - h.blockEnd - 1) + 1 by omega]
    rfl

/-- **The end of `ci_headers_unpack`** leaves the buffer on the blocks that cannot be terminated. -/
theorem Scanned.memory_iff {h' : HeaderBuf} {ks : List HeaderLine} {k : HeaderLine}
    (hs : h.Scanned h' ks k) (hfits : h.bufused ≤ h.buf.length) (hr : ¬ h.Refused) :
    (h'.close a).terminate = .error .memory ↔ ¬ h.Terminable := by
  obtain ⟨hlong, -⟩ := not_or.mp hr
  have hend : h.blockEnd ≤ h.bufused - 2 := stripEnds_le h.buf (h.bufused - 2)
  obtain ⟨⟨more, hbuf⟩, hused, hheaders⟩ := close_frame a h'
  have hfits' := hs.fits
  -- the used bytes are those behind the loop
  have htake : (h'.close a).buf.take (h'.close a).bufused = h'.buf.take h'.bufused := by
    rw [hbuf, hused, take_append_of_le_length hfits']
  have hclose : (h'.close a).bufused ≤ (h'.close a).buf.length := by
    rw [hbuf, length_append]
    omega
  have hne : (h'.close a).headers ≠ [] := by
    intro hnil
    rw [hnil] at hheaders
    exact hs.index (length_eq_zero_iff.mp hheaders.symm)
  -- both ends are closed behind the zero at `ebuf`
  generalize ht : (h.buf.drop (h.blockEnd + 1)).take (h.bufused - h.blockEnd - 1) = t
  have htail : t ≠ [] := by
    rw [← ht]
    apply ne_nil_of_length_pos
    rw [length_take, length_drop]
    omega
  have hset : (h.buf.set h.blockEnd 0).take h.bufused = h.buf.take h.blockEnd ++ 0 :: t := by
    have hlen : (h.buf.take h.blockEnd).length = h.blockEnd := length_take_of_le (by omega)
    rw [set_eq_take_append_cons_drop, if_pos (by omega), take_append,
      take_of_length_le (by omega), hlen,
      show h.bufused - h.blockEnd = (h.bufused - h.blockEnd - 1) + 1 by omega, take_succ_cons]
    rw [← ht]
  have hclosed : (h'.close a).closed = true ↔
      { h with buf := h.buf.set h.blockEnd 0 }.closed = true := by
    rw [closed_iff hclose, htake, hs.bytes, ht, endsClosed_append htail,
      closed_iff (by simpa using hfits), hset, endsClosed_append htail]
  have htext : (∀ b ∈ lineJoin ks ++ k.text ++ 0 :: t, endByte b = true) ↔
      (∀ l ∈ h.blockLines, ∀ b ∈ l.text, endByte b = true) ∧
        endByte (h.buf.getD (h.bufused - 1) 0) = true := by
    rw [← tail_endByte_iff hfits hr, ht, hs.lines]
    simp only [mem_append, or_imp, forall_and, mem_lineJoin_endByte]
    simp [endByte]
  rw [terminate_memory_iff hne, htake, hs.bytes, ht, htext, ← Bool.not_eq_true, hclosed]
  unfold Terminable
  simp only [not_or, not_exists, not_and, Bool.not_eq_false]
  exact and_rotate

theorem assertTerminate_memory_iff :
    h.assertTerminate = .error .memory ↔ h.terminate = .error .memory := by
  unfold assertTerminate assert
  cases h.terminate with
  | error f => simp [bind, Except.bind]
  | ok res =>
    obtain ⟨ok, h'⟩ := res
    cases ok <;> simp [bind, Except.bind, pure, Except.pure]

/-- On a block that is not refused, an access outside the buffer is made at the end only. -/
theorem unpack_memory_iff {h' : HeaderBuf} {ks : List HeaderLine} {k : HeaderLine}
    (hfits : h.bufused ≤ h.buf.length) (hsize : 0 < h.size) (hp : ¬ h.Parsed) (hr : ¬ h.Refused)
    (hscan : scan a h.blockEnd h.blockEnd h.opened 0 = (true, h')) (hs : h.Scanned h' ks k) :
    h.unpack a = .error .memory ↔ ¬ h.Terminable := by
  rw [unpack_eq_scan hfits hsize hp hr, hscan, ← hs.memory_iff hfits hr, ← assertTerminate_memory_iff]
  dsimp only
  cases (h'.close a).assertTerminate <;> simp [bind, Except.bind, pure, Except.pure]

/-- With memory for all allocations, a block that cannot be terminated is read outside the buffer. -/
theorem unpack_outside (hfits : h.bufused ≤ h.buf.length) (hsize : 0 < h.size)
    (hp : ¬ h.Parsed) (hr : ¬ h.Refused) (ht : ¬ h.Terminable) :
    Checked.unpack {} h = .error .memory := by
  rw [Checked.unpack_eq hfits]
  rcases scan_opened hfits hsize hr with ⟨h', -, hfail⟩ | ⟨h', ks, k, hscan, hs⟩
  · exact absurd hfail Allocator.not_fails
  · exact (unpack_memory_iff hfits hsize hp hr hscan hs).mpr ht

theorem assertTerminate_ok (hmem : h.terminate ≠ .error .memory)
    (hroom : h.bufused + 4 ≤ h.buf.length) : ∃ h', h.assertTerminate = .ok h' := by
  have hkept : ((h.buf.take h.bufused).reverse.dropWhile endByte).length ≤ h.bufused := by
    calc ((h.buf.take h.bufused).reverse.dropWhile endByte).length
        ≤ (h.buf.take h.bufused).reverse.length := (dropWhile_suffix _).length_le
      _ ≤ h.bufused := by
        rw [length_reverse]
        exact length_take_le _ _
  unfold assertTerminate
  unfold terminate at hmem ⊢
  by_cases hnil : h.headers = []
  · rw [if_pos hnil]
    exact ⟨_, rfl⟩
  by_cases hclosed : h.closed = true
  · rw [if_neg hnil, if_pos hclosed]
    exact ⟨_, rfl⟩
  rw [if_neg hnil, if_neg hclosed] at hmem ⊢
  by_cases hzero : ((h.buf.take h.bufused).reverse.dropWhile endByte).length = 0
  · rw [if_pos hzero] at hmem
    exact absurd rfl hmem
  · rw [if_neg hzero, if_neg (by omega), store, if_pos (by simp; omega)]
    exact ⟨_, rfl⟩

/-- With memory for all allocations, a block that can be terminated is read. -/
theorem unpack_ok (hfits : h.bufused ≤ h.buf.length) (hsize : 0 < h.size)
    (ha : ¬ a.Fails) (hr : ¬ h.Refused) (ht : h.Terminable) : ∃ h', h.unpack a = .ok (.ec100, h') := by
  by_cases hp : h.Parsed
  · exact ⟨h, unpack_of_parsed hp⟩
  rcases scan_opened (a := a) hfits hsize hr with ⟨h', -, hfail⟩ | ⟨h', ks, k, hscan, hs⟩
  · exact absurd hfail ha
  · obtain ⟨h'', hterm⟩ := assertTerminate_ok (fun hmem => (hs.memory_iff hfits hr).mp hmem ht)
      (by rw [(close_frame a h').2.1]; exact (@checkSpace_zero { h' with packed := false } hs.room a).2 ha)
    rw [unpack_eq_scan hfits hsize hp hr, hscan]
    dsimp only
    rw [hterm]
    exact ⟨h'', rfl⟩

end HeaderBuf

/-- **`ci_headers_unpack` stays in the buffer and in the index**, whatever the allocations come to, exactly
when it has nothing to do, refuses the block or can terminate it. -/
theorem unpack_inside_iff {h : HeaderBuf} (hfits : h.bufused ≤ h.buf.length) (hsize : 0 < h.size) :
    (∀ a, Checked.unpack a h ≠ .error .memory) ↔ h.Parsed ∨ h.Refused ∨ h.Terminable := by
  constructor
  · intro hin
    by_contra hnot
    obtain ⟨hp, hr, ht⟩ := by simpa only [not_or] using hnot
    exact hin {} (unpack_outside hfits hsize hp hr ht)
  · rintro hcond a
    rw [Checked.unpack_eq hfits]
    by_cases hp : h.Parsed
    · rw [unpack_of_parsed hp]
      nofun
    by_cases hr : h.Refused
    · rw [unpack_of_refused hfits hp hr]
      nofun
    have ht := (hcond.resolve_left hp).resolve_left hr
    rcases scan_opened (a := a) hfits hsize hr with ⟨h', hscan, -⟩ | ⟨h', ks, k, hscan, hs⟩
    · rw [unpack_eq_scan hfits hsize hp hr, hscan]
      nofun
    · exact fun hmem => (unpack_memory_iff hfits hsize hp hr hscan hs).mp hmem ht

/-- A list as `ci_headers_create` makes it, with a block in its buffer. -/
def loaded (block : List UInt8) : HeaderBuf where
  addr := 0
  buf := block ++ replicate (headsBufSize - block.length) 0
  bufused := block.length
  headers := []
  size := headerStartSize
  packed := false

/-- A block of one line. -/
theorem unpack_inside_line : (loaded (bytes "A\r\n\r\n")).Terminable ∧
    ∀ a, Checked.unpack a (loaded (bytes "A\r\n\r\n")) ≠ .error .memory :=
  ⟨by decide, (unpack_inside_iff (by simp [loaded]) (by decide)).mpr (.inr (.inr (by decide)))⟩

/-- A block of two line ends is read in front of the buffer. -/
theorem unpack_outside_empty : Checked.unpack {} (loaded (bytes "\r\n\r\n")) = .error .memory :=
  unpack_outside (by simp [loaded]) (by decide) (by decide) (by decide) (by decide)

end CIcap
