import CIcap.Header.Edit

/-! # Reading a block of headers

`ci_headers_unpack`: the line ends of a block become zeros in place while the index is built.
-/

namespace CIcap

open CText Segments HeaderBuf List
open Headers (lineBytes lineEnd segs scanLines cleanByte)

namespace HeaderBuf

/-- `\r` or `\n` -/
def isEol (b : UInt8) : Bool := b = 13 || b = 10

/-- The loop that moves `ebuf` back over line ends; it stays behind the first byte. -/
def stripEnds (buf : List UInt8) : Nat → Nat
  | 0 => 0
  | 1 => 1
  | e + 2 => if isEol (buf.getD (e + 1) 0) then stripEnds buf (e + 1) else e + 2

/-- The byte at `str` starts the end of a header: a line end that is not folded. -/
def endOfHeader (buf : List UInt8) (ebuf str : Nat) : Bool :=
  let next := buf.getD (str + 1) 0
  if buf.getD str 0 = 13 ∧ next = 10 then
    ebuf ≤ str + 2 || (buf.getD (str + 2) 0 ≠ 9 && buf.getD (str + 2) 0 ≠ 32)
  else buf.getD str 0 = 10 && next ≠ 9 && next ≠ 32

/-- The loop of `ci_headers_unpack` from `str` on, in which every position is in front of the last
two used bytes; `false` when the index cannot grow. -/
def scan (a : Allocator) (ebuf : Nat) : Nat → HeaderBuf → Nat → Bool × HeaderBuf
  | 0, h, _ => (true, h)
  | fuel + 1, h, str =>
    if str < ebuf then
      if endOfHeader h.buf ebuf str then
        let h := { h with buf := h.buf.set str 0 }
        if h.size ≤ h.headers.length ∧ !a.index (h.size + headerStartSize) then (false, h)
        else
          let size := if h.size ≤ h.headers.length then h.size + headerStartSize else h.size
          let str := str + 1
          -- not so when headers are separated by `\n` only
          let str := if h.buf.getD str 0 = 10 then str + 1 else str
          scan a ebuf fuel { h with size := size, headers := h.headers ++ [h.addr + str] } (str + 1)
      else
        let buf := if h.buf.getD str 0 = 0 then h.buf.set str 32 else h.buf
        scan a ebuf fuel { h with buf := buf } (str + 1)
    else (true, h)

/-- `ci_headers_unpack` -/
def unpack (a : Allocator) (h : HeaderBuf) : Except Fault (Ec × HeaderBuf) := do
  let unParsed := 0 < h.bufused && h.headers = []
  if !h.packed && !unParsed then return (.ec100, h)
  if h.bufused < 2 then return (.ec400, h)
  let b ← h.byte (h.bufused - 2)
  if !isEol b then return (.ec400, h)
  let ebuf := stripEnds h.buf (h.bufused - 2)
  let h ← h.store ebuf [0]
  let h ← { h with headers := [] }.pushHeaders [h.addr]
  match scan a ebuf ebuf h 0 with
  | (false, h) => return (.ec500, h)
  | (true, h) =>
    let h := { h with packed := false }
    let h := (h.checkSpace a 0 0).2
    let h ← h.assertTerminate
    return (.ec100, h)

def texts (h : HeaderBuf) : List (List UInt8) :=
  h.headers.map (fun p => cstr (h.buf.drop (p - h.addr)))

end HeaderBuf

/-! ## The loop -/

/-- The bytes of lines in a list that is edited. -/
def lineJoin (ls : List HeaderLine) : List UInt8 := (ls.map (lineBytes false)).flatten

theorem lineJoin_concat (ls : List HeaderLine) (l : HeaderLine) :
    lineJoin (ls ++ [l]) = lineJoin ls ++ lineBytes false l := by
  simp [lineJoin]

/-- A position in the loop over the block of the buffer `h₀`: `done` are the lines it has found,
`line` is what it has read of the next one and `rest` what it has not read. The zero at the end
of the block is followed by `tail`. -/
structure ScanAt (h₀ h : HeaderBuf) (done : List HeaderLine) (line rest tail : List UInt8) : Prop where
  buf : h.buf = lineJoin done ++ line ++ (rest ++ 0 :: tail)
  index : h.headers = (starts 0 (done.map (lineBytes false)) ++ [(lineJoin done).length]).map
    (h.addr + ·)
  room : h.headers.length ≤ h.size
  addr : h.addr = h₀.addr
  bufused : h.bufused = h₀.bufused
  packed : h.packed = h₀.packed

theorem getD_append (before after : List UInt8) (i : Nat) :
    (before ++ after).getD (before.length + i) 0 = after.getD i 0 := by
  rw [getD_eq_getElem?_getD, getD_eq_getElem?_getD,
    getElem?_append_right (by omega), Nat.add_sub_cancel_left]

/-- The test for the end of a header looks at what is left only. -/
theorem endOfHeader_append (before rest : List UInt8) (n : Nat) :
    endOfHeader (before ++ rest) (before.length + n) before.length = endOfHeader rest n 0 := by
  have h0 := getD_append before rest 0
  have h1 := getD_append before rest 1
  have h2 := getD_append before rest 2
  have hle : (decide (before.length + n ≤ before.length + 2)) = decide (n ≤ 0 + 2) := by
    simp
  rw [Nat.add_zero] at h0
  unfold endOfHeader
  rw [h0, h1, h2, hle]

variable {a : Allocator} {ebuf fuel str : Nat} {h : HeaderBuf}

/-- A header ends here: the next one is put into the index. -/
theorem scan_end (hlt : str < ebuf) (heoh : endOfHeader h.buf ebuf str = true) :
    scan a ebuf (fuel + 1) h str =
      if h.size ≤ h.headers.length ∧ !a.index (h.size + headerStartSize) then
        (false, { h with buf := h.buf.set str 0 })
      else
        let next := if (h.buf.set str 0).getD (str + 1) 0 = 10 then str + 2 else str + 1
        scan a ebuf fuel { h with
          buf := h.buf.set str 0
          size := if h.size ≤ h.headers.length then h.size + headerStartSize else h.size
          headers := h.headers ++ [h.addr + next] } (next + 1) := by
  rw [scan, if_pos hlt, if_pos heoh]

theorem scan_next (hlt : str < ebuf) (heoh : endOfHeader h.buf ebuf str = false) :
    scan a ebuf (fuel + 1) h str =
      scan a ebuf fuel { h with buf := if h.buf.getD str 0 = 0 then h.buf.set str 32 else h.buf }
        (str + 1) := by
  rw [scan, if_pos hlt, if_neg (by rw [heoh]; decide)]

theorem ScanAt.skip {h₀ : HeaderBuf} {done : List HeaderLine} {d : UInt8} {rest tail : List UInt8}
    (hat : ScanAt h₀ h done [] (d :: rest) tail) : ScanAt h₀ h done [d] rest tail := by
  refine ⟨?_, hat.index, hat.room, hat.addr, hat.bufused, hat.packed⟩
  rw [hat.buf]
  simp

section Step

variable {h₀ : HeaderBuf} {done : List HeaderLine} {line bs rest tail : List UInt8} {d e : UInt8}

/-- The line end is replaced and the next header starts behind it. -/
theorem ScanAt.line_end (crlf : Bool) (hat : ScanAt h₀ h done line bs tail)
    (hbs : bs = e :: ((if crlf then [10] else []) ++ rest))
    (hlf : crlf = false → (rest ++ 0 :: tail).head? ≠ some 10)
    (hebuf : ebuf = (lineJoin done ++ line).length + bs.length)
    (heoh : endOfHeader (bs ++ 0 :: tail) bs.length 0 = true) :
    (∃ h', scan a ebuf (fuel + 1) h (lineJoin done ++ line).length = (false, h') ∧ a.Fails) ∨
      ∃ h', scan a ebuf (fuel + 1) h (lineJoin done ++ line).length =
          scan a ebuf fuel h' ((lineJoin (done ++ [⟨line, crlf⟩])).length + 1) ∧
        ScanAt h₀ h' (done ++ [⟨line, crlf⟩]) [] rest tail := by
  subst hbs
  have hbuf := hat.buf
  have hlt : (lineJoin done ++ line).length < ebuf := by
    rw [hebuf, length_cons]
    omega
  have hend : endOfHeader h.buf ebuf (lineJoin done ++ line).length = true := by
    rw [hbuf, hebuf, endOfHeader_append]
    exact heoh
  rw [scan_end hlt hend]
  by_cases hfails : h.size ≤ h.headers.length ∧ (!a.index (h.size + headerStartSize)) = true
  · rw [if_pos hfails]
    exact .inl ⟨_, rfl, .inr (.inl ⟨_, by simpa using hfails.2⟩)⟩
  rw [if_neg hfails]
  -- the bytes of the line with its new end
  have hset : h.buf.set (lineJoin done ++ line).length 0 =
      lineJoin done ++ line ++ (0 :: (if crlf then [10] else []) ++ (rest ++ 0 :: tail)) := by
    rw [hbuf]
    simp
  have hnextByte : (h.buf.set (lineJoin done ++ line).length 0).getD ((lineJoin done ++ line).length + 1) 0 =
      ((if crlf then [10] else []) ++ (rest ++ 0 :: tail)).getD 0 0 := by
    rw [hset, getD_append]
    rfl
  have hjoin : lineJoin (done ++ [⟨line, crlf⟩]) =
      lineJoin done ++ line ++ 0 :: (if crlf then [10] else []) := by
    rw [lineJoin_concat, append_assoc]
    cases crlf <;> rfl
  have hnext : (if (h.buf.set (lineJoin done ++ line).length 0).getD ((lineJoin done ++ line).length + 1) 0 = 10
      then (lineJoin done ++ line).length + 2 else (lineJoin done ++ line).length + 1) =
      (lineJoin (done ++ [⟨line, crlf⟩])).length := by
    rw [hnextByte, hjoin, @length_append _ (lineJoin done ++ line)]
    cases crlf with
    | true => rfl
    | false =>
      rw [if_neg ?_]
      · rfl
      · intro h10
        apply hlf rfl
        cases hr : rest ++ 0 :: tail with
        | nil => simp at hr
        | cons b bs =>
          rw [hr] at h10
          simpa using h10
  rw [hnext]
  refine .inr ⟨_, rfl, ?_, ?_, ?_, hat.addr, hat.bufused, hat.packed⟩
  · rw [hset, hjoin]
    simp
  · have hstarts : starts 0 ((done ++ [(⟨line, crlf⟩ : HeaderLine)]).map (lineBytes false)) =
        starts 0 (done.map (lineBytes false)) ++ [(lineJoin done).length] := by
      rw [map_append, starts_append, Nat.zero_add]
      rfl
    rw [hstarts, hat.index]
    simp
  · have := hat.room
    simp only [length_append, length_singleton]
    split
    · unfold headerStartSize
      omega
    · omega

theorem ScanAt.byte {b : UInt8} (hat : ScanAt h₀ h done line (b :: rest) tail)
    (hebuf : ebuf = (lineJoin done ++ line).length + (b :: rest).length)
    (heoh : endOfHeader (b :: rest ++ 0 :: tail) (b :: rest).length 0 = false) :
    ∃ h', scan a ebuf (fuel + 1) h (lineJoin done ++ line).length =
        scan a ebuf fuel h' (lineJoin done ++ (line ++ [cleanByte b])).length ∧
      ScanAt h₀ h' done (line ++ [cleanByte b]) rest tail := by
  have hlt : (lineJoin done ++ line).length < ebuf := by
    rw [hebuf, length_cons]
    omega
  have hend : endOfHeader h.buf ebuf (lineJoin done ++ line).length = false := by
    rw [hat.buf, hebuf, endOfHeader_append]
    exact heoh
  have hbyte : h.buf.getD (lineJoin done ++ line).length 0 = b := by
    rw [hat.buf]
    exact getD_append _ _ 0
  have hnew : (if h.buf.getD (lineJoin done ++ line).length 0 = 0
      then h.buf.set (lineJoin done ++ line).length 32 else h.buf) =
      lineJoin done ++ (line ++ [cleanByte b]) ++ (rest ++ 0 :: tail) := by
    rw [hbyte, hat.buf, cons_append, Segments.set_append, cleanByte]
    split <;> simp
  rw [scan_next hlt hend, hnew]
  refine ⟨{ h with buf := lineJoin done ++ (line ++ [cleanByte b]) ++ (rest ++ 0 :: tail) }, ?_,
    rfl, hat.index, hat.room, hat.addr, hat.bufused, hat.packed⟩
  simp only [length_append]
  congr 1

theorem scan_done (hle : ebuf ≤ str) : scan a ebuf fuel h str = (true, h) := by
  cases fuel with
  | zero => rfl
  | succ fuel => rw [scan, if_neg (by omega)]

theorem endOfHeader_of_not {b c : UInt8} {rest : List UInt8}
    (hnot : ¬(b = 13 ∧ c = 10 ∧ rest.head? ≠ some 9 ∧ rest.head? ≠ some 32))
    (hnot' : ¬(b = 10 ∧ c ≠ 9 ∧ c ≠ 32)) (tail : List UInt8) :
    endOfHeader (b :: c :: rest ++ 0 :: tail) (b :: c :: rest).length 0 = false := by
  unfold endOfHeader
  by_cases hcr : b = 13 ∧ c = 10
  · -- the line end is folded
    obtain ⟨rfl, rfl⟩ := hcr
    cases rest with
    | nil => simp at hnot
    | cons d rest =>
      simp only [head?_cons, ne_eq, Option.some.injEq, true_and, not_and] at hnot
      by_cases hd : d = 9
      · simp [hd]
      · simp [hnot hd]
  · simp only [cons_append, getD_cons_zero, getD_cons_succ, if_neg hcr]
    simpa [and_assoc] using hnot'

theorem exists_fuel {b : UInt8} {l : List UInt8} (hfuel : (b :: l).length ≤ fuel) :
    ∃ f, fuel = f + 1 ∧ l.length ≤ f := by
  cases fuel with
  | zero => simp at hfuel
  | succ fuel => exact ⟨fuel, rfl, by simpa using hfuel⟩

/-- The loop ends with the lines `ls`, or cannot grow the index. -/
def Scans (a : Allocator) (h₀ h : HeaderBuf) (ebuf fuel str : Nat) (tail : List UInt8)
    (ls : List HeaderLine) : Prop :=
  (∃ h', scan a ebuf fuel h str = (false, h') ∧ a.Fails) ∨
    ∃ h' ks k, scan a ebuf fuel h str = (true, h') ∧ ls = ks ++ [k] ∧ ScanAt h₀ h' ks k.text [] tail

theorem Scans.of_eq {h' : HeaderBuf} {fuel' str' : Nat} {ls : List HeaderLine} (heq : scan a ebuf fuel h str = scan a ebuf fuel' h' str')
    (hs : Scans a h₀ h' ebuf fuel' str' tail ls) : Scans a h₀ h ebuf fuel str tail ls := by
  unfold Scans
  rw [heq]
  exact hs

theorem ScanAt.finished (hat : ScanAt h₀ h done line [] tail) (hle : ebuf ≤ str) :
    Scans a h₀ h ebuf fuel str tail (done ++ [⟨line, true⟩]) :=
  .inr ⟨h, done, ⟨line, true⟩, scan_done hle, rfl, hat⟩

/-- The last line end: an empty line is behind it. -/
theorem ScanAt.last_end (crlf : Bool) (hat : ScanAt h₀ h done line bs tail)
    (hbs : bs = e :: ((if crlf then [10] else []) ++ []))
    (hebuf : ebuf = (lineJoin done ++ line).length + bs.length)
    (heoh : endOfHeader (bs ++ 0 :: tail) bs.length 0 = true) :
    Scans a h₀ h ebuf (fuel + 1) (lineJoin done ++ line).length tail
      (done ++ [⟨line, crlf⟩, ⟨[], true⟩]) := by
  rcases hat.line_end crlf hbs (by simp) hebuf heoh with hfail | ⟨h', hscan, hat'⟩
  · exact .inl hfail
  · rw [show done ++ [⟨line, crlf⟩, ⟨[], true⟩] = (done ++ [⟨line, crlf⟩]) ++ [⟨[], true⟩] by simp]
    refine (hat'.finished ?_).of_eq hscan
    rw [hebuf, hbs, lineJoin_concat]
    cases crlf <;> simp [lineBytes, lineEnd]

/-- A line end with the byte `d` of another line behind it. -/
theorem ScanAt.next_line (crlf : Bool) (hat : ScanAt h₀ h done line bs tail)
    (hbs : bs = e :: ((if crlf then [10] else []) ++ d :: rest)) (hlf : crlf = false → d ≠ 10)
    (hebuf : ebuf = (lineJoin done ++ line).length + bs.length)
    (heoh : endOfHeader (bs ++ 0 :: tail) bs.length 0 = true)
    (hnext : ∀ {h'}, ScanAt h₀ h' (done ++ [⟨line, crlf⟩]) [d] rest tail →
      ebuf = (lineJoin (done ++ [⟨line, crlf⟩]) ++ [d]).length + rest.length →
      Scans a h₀ h' ebuf fuel (lineJoin (done ++ [⟨line, crlf⟩]) ++ [d]).length tail
        (done ++ [⟨line, crlf⟩] ++ scanLines [d] rest)) :
    Scans a h₀ h ebuf (fuel + 1) (lineJoin done ++ line).length tail
      (done ++ ⟨line, crlf⟩ :: scanLines [d] rest) := by
  rcases hat.line_end crlf hbs (by simpa using hlf) hebuf heoh with hfail | ⟨h', hscan, hat'⟩
  · exact .inl hfail
  · rw [append_cons]
    refine (hnext hat'.skip ?_).of_eq (hscan.trans ?_)
    · rw [hebuf, hbs, lineJoin_concat]
      cases crlf <;> simp [lineBytes, lineEnd] <;> omega
    · rw [length_append, length_singleton]

end Step

/-- **The loop** finds the lines of the block, or cannot grow the index. -/
theorem ScanAt.run {a : Allocator} {line rest : List UInt8} {h₀ h : HeaderBuf} {done : List HeaderLine}
    {tail : List UInt8} (hat : ScanAt h₀ h done line rest tail) {ebuf fuel : Nat}
    (hebuf : ebuf = (lineJoin done ++ line).length + rest.length) (hfuel : rest.length ≤ fuel) :
    Scans a h₀ h ebuf fuel (lineJoin done ++ line).length tail (done ++ scanLines line rest) := by
  induction line, rest using Headers.scanLines.induct generalizing done h fuel with
  | case1 line => exact hat.finished (by rw [hebuf]; simp)
  | case2 line =>
    obtain ⟨fuel, rfl, -⟩ := exists_fuel hfuel
    exact hat.last_end false rfl hebuf (by simp [endOfHeader])
  | case3 line b hb =>
    obtain ⟨fuel, rfl, -⟩ := exists_fuel hfuel
    obtain ⟨h', hscan, hat'⟩ := hat.byte hebuf (by simp [endOfHeader, hb])
    rw [show scanLines line [b] = [⟨line ++ [cleanByte b], true⟩] by simp [scanLines, hb]]
    refine (hat'.finished ?_).of_eq hscan
    rw [hebuf]
    simp
  | case4 line b c hbc =>
    obtain ⟨rfl, rfl, -⟩ := hbc
    obtain ⟨fuel, rfl, -⟩ := exists_fuel hfuel
    exact hat.last_end true rfl hebuf (by simp [endOfHeader])
  | case5 line b c d rest hbc ih =>
    obtain ⟨rfl, rfl, h9, h32⟩ := hbc
    obtain ⟨fuel, rfl, hlen⟩ := exists_fuel hfuel
    simp only [head?_cons, ne_eq, Option.some.injEq] at h9 h32
    rw [show scanLines line (13 :: 10 :: d :: rest) = ⟨line, true⟩ :: scanLines [d] rest by
      simp [scanLines, h9, h32]]
    exact hat.next_line true rfl nofun hebuf (by simp [endOfHeader, h9, h32])
      fun hat' he => ih hat' he (by simp at hlen; omega)
  | case6 line b hb hnot =>
    obtain ⟨rfl, -⟩ := hb
    obtain ⟨fuel, rfl, -⟩ := exists_fuel hfuel
    exact hat.last_end true rfl hebuf (by simp [endOfHeader])
  | case7 line b d rest hb hnot ih =>
    obtain ⟨rfl, -⟩ := hb
    obtain ⟨fuel, rfl, hlen⟩ := exists_fuel hfuel
    exact hat.next_line true rfl nofun hebuf (by simp [endOfHeader])
      fun hat' he => ih hat' he (by simp at hlen; omega)
  | case8 line b c rest hnot hb hc ih =>
    obtain ⟨rfl, h9, h32⟩ := hb
    obtain ⟨fuel, rfl, hlen⟩ := exists_fuel hfuel
    have hlines : scanLines line (10 :: c :: rest) = ⟨line, false⟩ :: scanLines [c] rest := by
      rw [Headers.scanLines.eq_def]
      simp [h9, h32, hc]
    rw [hlines]
    exact hat.next_line false rfl (fun _ => hc) hebuf (by simp [endOfHeader, h9, h32])
      fun hat' he => ih hat' he (by simp at hlen; omega)
  | case9 line b c rest hnot hnot' ih =>
    obtain ⟨fuel, rfl, hlen⟩ := exists_fuel hfuel
    obtain ⟨h', hscan, hat'⟩ := hat.byte hebuf (endOfHeader_of_not hnot hnot' tail)
    have hlines : scanLines line (b :: c :: rest) =
        scanLines (line ++ [cleanByte b]) (c :: rest) := by
      rw [Headers.scanLines.eq_def]
      simp only [if_neg hnot, if_neg hnot']
    rw [hlines]
    refine (ih hat' ?_ hlen).of_eq hscan
    rw [hebuf]
    simp
    omega

/-! ## The lines of a block -/

/-- The rest of a header line: bytes other than `\r` and `\n`, and folded line ends. -/
inductive LineRest : List UInt8 → Prop
  | nil : LineRest []
  | byte {b : UInt8} {t : List UInt8} (hcr : b ≠ 13) (hlf : b ≠ 10) (ht : LineRest t) : LineRest (b :: t)
  | fold {b : UInt8} {t : List UInt8} (hb : b = 32 ∨ b = 9) (ht : LineRest t) :
      LineRest (13 :: 10 :: b :: t)
  | foldLf {b : UInt8} {t : List UInt8} (hb : b = 32 ∨ b = 9) (ht : LineRest t) :
      LineRest (10 :: b :: t)

/-- A header line: it is not empty, and its line ends are folded. -/
structure HeaderText (t : List UInt8) : Prop where
  ne : t ≠ []
  rest : LineRest t
  head : ∀ b ∈ t.head?, b ≠ 13 ∧ b ≠ 10

namespace Headers

/-- The scan of `t` in a line, by what follows: `\r\n` or `\n` and a byte that does not fold it, or
the end of the block. -/
structure Reads (line t : List UInt8) (text : List UInt8) : Prop where
  crlf : ∀ c rest, c ≠ 32 → c ≠ 9 →
    scanLines line (t ++ 13 :: 10 :: c :: rest) = ⟨text, true⟩ :: scanLines [c] rest
  lf : ∀ c rest, c ≠ 32 → c ≠ 9 → c ≠ 10 →
    scanLines line (t ++ 10 :: c :: rest) = ⟨text, false⟩ :: scanLines [c] rest
  done : scanLines line t = [⟨text, true⟩]

theorem Reads.byte {line t text : List UInt8} {b : UInt8} (hcr : b ≠ 13) (hlf : b ≠ 10)
    (h : Reads (line ++ [cleanByte b]) t text) : Reads line (b :: t) text := by
  have hstep : ∀ xs, xs ≠ [] → scanLines line (b :: xs) = scanLines (line ++ [cleanByte b]) xs := by
    intro xs hxs
    obtain ⟨x, xs', rfl⟩ := exists_cons_of_ne_nil hxs
    rw [scanLines.eq_def]
    simp [hcr, hlf]
  refine ⟨?_, ?_, ?_⟩
  · intro c rest h32 h9
    rw [cons_append, hstep _ (by simp), h.crlf c rest h32 h9]
  · intro c rest h32 h9 h10
    rw [cons_append, hstep _ (by simp), h.lf c rest h32 h9 h10]
  · by_cases hnil : t = []
    · have hlast : scanLines line [b] = [⟨line ++ [cleanByte b], true⟩] := by
        simp [scanLines, hlf]
      have hdone := h.done
      rw [hnil, scanLines] at hdone
      rw [hnil, hlast, hdone]
    · rw [hstep _ hnil, h.done]

variable {t : List UInt8} {b : UInt8}

theorem Reads.of_step {line line' t' text : List UInt8} (h : Reads line' t' text)
    (hstep : ∀ xs, scanLines line (t ++ xs) = scanLines line' (t' ++ xs)) : Reads line t text where
  crlf c rest h32 h9 := (hstep _).trans (h.crlf c rest h32 h9)
  lf c rest h32 h9 h10 := (hstep _).trans (h.lf c rest h32 h9 h10)
  done := by simpa using (hstep []).trans (by simpa using h.done)

/-- A line feed in front of a blank is a part of the line. -/
theorem Reads.lineFeed {line text : List UInt8} (hb : b = 32 ∨ b = 9)
    (h : Reads (line ++ [10]) (b :: t) text) : Reads line (10 :: b :: t) text := by
  refine h.of_step fun xs => ?_
  rw [scanLines.eq_def]
  rcases hb with rfl | rfl <;> simp [cleanByte]

theorem Reads.carriageReturn {line text : List UInt8} (hb : b = 32 ∨ b = 9)
    (h : Reads (line ++ [13]) (10 :: b :: t) text) : Reads line (13 :: 10 :: b :: t) text := by
  refine h.of_step fun xs => ?_
  rw [scanLines.eq_def]
  rcases hb with rfl | rfl <;> simp [cleanByte]

theorem reads_rest (ht : LineRest t) (line : List UInt8) :
    Reads line t (line ++ t.map cleanByte) := by
  induction ht generalizing line with
  | nil =>
    rw [map_nil, append_nil]
    refine ⟨?_, ?_, rfl⟩
    · intro c rest h32 h9
      simp [scanLines, h32, h9]
    · intro c rest h32 h9 h10
      rw [scanLines.eq_def]
      simp [h32, h9, h10]
  | @byte b t hcr hlf _ ih =>
    have h := ih (line ++ [cleanByte b])
    rw [append_assoc] at h
    exact h.byte hcr hlf
  | @fold b t hb _ ih =>
    have hne : b ≠ 13 ∧ b ≠ 10 := by rcases hb with rfl | rfl <;> decide
    have h := ih (line ++ [13] ++ [10] ++ [cleanByte b])
    have htext : line ++ [13] ++ [10] ++ [cleanByte b] ++ t.map cleanByte =
        line ++ (13 :: 10 :: b :: t).map cleanByte := by
      simp [cleanByte]
    rw [htext] at h
    exact ((h.byte hne.1 hne.2).lineFeed hb).carriageReturn hb
  | @foldLf b t hb _ ih =>
    have hne : b ≠ 13 ∧ b ≠ 10 := by rcases hb with rfl | rfl <;> decide
    have h := ih (line ++ [10] ++ [cleanByte b])
    have htext : line ++ [10] ++ [cleanByte b] ++ t.map cleanByte =
        line ++ (10 :: b :: t).map cleanByte := by
      simp [cleanByte]
    rw [htext] at h
    exact (h.byte hne.1 hne.2).lineFeed hb

/-- The lines without the line end of the last one. -/
def blockBody : List HeaderLine → List UInt8
  | [] => []
  | [l] => l.text
  | l :: ls => lineBytes true l ++ blockBody ls

/-- The line as it is scanned. -/
def cleanLine (l : HeaderLine) : HeaderLine := { l with text := l.text.map cleanByte }

/-- The first byte of a line that is not the first one: no blank, which would fold the line end in
front of it, and no zero, which the scan would not see. -/
def NextLine (l : HeaderLine) : Prop := ∀ b ∈ l.text.head?, b ≠ 32 ∧ b ≠ 9 ∧ b ≠ 0

theorem lineRest_tail (h : LineRest (b :: t)) (hcr : b ≠ 13) (hlf : b ≠ 10) : LineRest t := by
  cases h with
  | byte _ _ ht => exact ht
  | fold _ _ => exact absurd rfl hcr
  | foldLf _ _ => exact absurd rfl hlf

theorem scanLines_blockBody {t : List UInt8} (ht : LineRest t) (line : List UInt8) (cr : Bool)
    {ls : List HeaderLine} (htext : ∀ l ∈ ls, HeaderText l.text) (hnext : ∀ l ∈ ls, NextLine l) :
    scanLines line (blockBody (⟨t, cr⟩ :: ls)) =
      closeLast (⟨line ++ t.map cleanByte, cr⟩ :: ls.map cleanLine) := by
  induction ls generalizing t line cr with
  | nil => exact (reads_rest ht line).done
  | cons m ms ih =>
    have hm := htext m (by simp)
    obtain ⟨c, u, hu⟩ := exists_cons_of_ne_nil hm.ne
    obtain ⟨hc13, hc10⟩ := hm.head c (by rw [hu]; rfl)
    obtain ⟨hc32, hc9, hc0⟩ := hnext m (by simp) c (by rw [hu]; rfl)
    have hrest : LineRest u := by
      have h := hm.rest
      rw [hu] at h
      exact lineRest_tail h hc13 hc10
    have hbody : blockBody (m :: ms) = c :: blockBody (⟨u, m.crlf⟩ :: ms) := by
      cases ms <;> simp [blockBody, lineBytes, hu]
    have hclean : cleanByte c = c := if_neg hc0
    have hline : (⟨[c] ++ u.map cleanByte, m.crlf⟩ : HeaderLine) = cleanLine m := by
      rw [cleanLine, hu, map_cons, hclean]
      rfl
    have hms := ih hrest [c] m.crlf ((forall_mem_cons.mp htext).2) ((forall_mem_cons.mp hnext).2)
    rw [hline] at hms
    have hread := reads_rest ht line
    have hbytes : blockBody (⟨t, cr⟩ :: m :: ms) = t ++ (lineEnd true cr ++ blockBody (m :: ms)) := by
      simp [blockBody, lineBytes]
    rw [hbytes, hbody]
    cases cr with
    | true =>
      have h := hread.crlf c (blockBody (⟨u, m.crlf⟩ :: ms)) hc32 hc9
      rw [hms] at h
      exact h
    | false =>
      have h := hread.lf c (blockBody (⟨u, m.crlf⟩ :: ms)) hc32 hc9 hc10
      rw [hms] at h
      exact h

end Headers

theorem LineRest.getLast {t : List UInt8} (ht : LineRest t) : ∀ b ∈ t.getLast?, b ≠ 13 ∧ b ≠ 10 := by
  have hcons : ∀ {b : UInt8} {u : List UInt8}, b ≠ 13 → b ≠ 10 → (∀ c ∈ u.getLast?, c ≠ 13 ∧ c ≠ 10) →
      ∀ c ∈ (b :: u).getLast?, c ≠ 13 ∧ c ≠ 10 := by
    intro b u hcr hlf hu c hc
    by_cases hnil : u = []
    · rw [hnil, getLast?_singleton, Option.mem_some_iff] at hc
      rw [← hc]
      exact ⟨hcr, hlf⟩
    · rw [getLast?_cons_of_ne_nil hnil] at hc
      exact hu c hc
  induction ht with
  | nil => nofun
  | byte hcr hlf _ ih => exact hcons hcr hlf ih
  | @fold b t hb _ ih =>
    have hne : b ≠ 13 ∧ b ≠ 10 := by rcases hb with rfl | rfl <;> decide
    rw [getLast?_cons_cons, getLast?_cons_cons]
    exact hcons hne.1 hne.2 ih
  | @foldLf b t hb _ ih =>
    have hne : b ≠ 13 ∧ b ≠ 10 := by rcases hb with rfl | rfl <;> decide
    rw [getLast?_cons_cons]
    exact hcons hne.1 hne.2 ih

/-- A line that has been scanned stays apart from its line end. -/
theorem HeaderText.held {t : List UInt8} (ht : HeaderText t) : HeldText (t.map cleanByte) := by
  refine ⟨by simpa using ht.ne, ?_, ?_⟩
  · intro h0
    obtain ⟨b, -, hb⟩ := mem_map.mp h0
    unfold cleanByte at hb
    split at hb
    · exact absurd hb (by decide)
    · rename_i hne
      exact hne hb
  · intro b hb
    rw [getLast?_map, Option.mem_def, Option.map_eq_some_iff] at hb
    obtain ⟨c, hc, rfl⟩ := hb
    obtain ⟨h13, h10⟩ := ht.rest.getLast c hc
    unfold cleanByte endByte
    split
    · decide
    · rename_i h0
      simp [h13, h10, h0]

/-! ## The end of the block -/

theorem stripEnds_append {body mid : List UInt8} (hne : body ≠ [])
    (hlast : ∀ b ∈ body.getLast?, isEol b = false) (hmid : ∀ b ∈ mid, isEol b = true)
    (after : List UInt8) :
    stripEnds (body ++ mid ++ after) (body ++ mid).length = body.length := by
  induction mid using reverseRecOn generalizing after with
  | nil =>
    obtain ⟨xs, x, rfl⟩ := (eq_nil_or_concat body).resolve_left hne
    rw [concat_eq_append] at hlast ⊢
    have hx : isEol x = false := hlast x (by simp)
    rw [append_nil, length_append, length_singleton]
    cases hxs : xs.length with
    | zero => rfl
    | succ n =>
      have hbyte : (xs ++ [x] ++ after).getD (n + 1) 0 = x := by
        rw [← hxs, append_assoc]
        exact getD_append xs ([x] ++ after) 0
      rw [stripEnds, hbyte, hx]
      rfl
  | append_singleton mid x ih =>
    have hx : isEol x = true := hmid x (by simp)
    have hrest := ih (fun b hb => hmid b (by simp [hb])) (x :: after)
    obtain ⟨n, hn⟩ : ∃ n, (body ++ mid).length = n + 1 := by
      have := length_pos_iff.mpr hne
      exact ⟨(body ++ mid).length - 1, by rw [length_append]; omega⟩
    have hlen : (body ++ (mid ++ [x])).length = n + 2 := by
      rw [← append_assoc, length_append, hn]
      rfl
    have hbuf : body ++ (mid ++ [x]) ++ after = body ++ mid ++ x :: after := by simp
    have hbyte : (body ++ mid ++ x :: after).getD (n + 1) 0 = x := by
      rw [← hn]
      exact getD_append (body ++ mid) (x :: after) 0
    rw [hlen, hbuf, stripEnds, hbyte, hx, if_pos rfl, ← hn, hrest]

/-- The space that is asked for at the end: the buffer may move. -/
theorem checkSpace_zero (hroom : h.headers.length ≤ h.size) (a : Allocator) :
    h.Spaced h.size (h.checkSpace a 0 0).2 ∧
      (¬ a.Fails → h.bufused + 4 ≤ (h.checkSpace a 0 0).2.buf.length) := by
  have hspace : h.indexSize 0 = some h.size := by
    rw [indexSize, indexSpace_eq (by omega), if_pos (by omega)]
  obtain ⟨ok, size, h', heq, hspaced, hsize, hok⟩ := checkSpace_cases a h 0 0
  rw [hspace, Option.some.injEq] at hsize
  obtain rfl : h.size = size := hsize.elim id Eq.symm
  have hused := hspaced.frame.2.1
  rw [heq]
  refine ⟨hspaced, fun ha => ?_⟩
  rcases hok with ⟨-, -, hlarge⟩ | ⟨-, hnone | hfails⟩
  · rwa [← hused]
  · rw [hspace] at hnone
    cases hnone
  · exact absurd hfails ha

theorem close_scanned {ks : List HeaderLine} {text ends spare : List UInt8}
    (hbuf : h.buf = lineJoin ks ++ text ++ (0 :: ends ++ spare))
    (hused : h.bufused = (lineJoin ks ++ text).length + (ends.length + 1))
    (hindex : h.headers = (starts 0 (ks.map (lineBytes false)) ++ [(lineJoin ks).length]).map
      (h.addr + ·))
    (hroom : h.headers.length ≤ h.size) (hpacked : h.packed = false)
    (hks : ∀ l ∈ ks, HeldText l.text) (htext : HeldText text)
    (hends : ∀ b ∈ ends, endByte b = true) (hshort : ends.length ≤ 3) (hspare : 4 ≤ spare.length) :
    ∃ h', h.assertTerminate = .ok h' ∧
      Holds h' { lines := ks ++ [⟨text, true⟩], size := h.size, packed := false } := by
  have hbytes : ({ lines := ks ++ [⟨text, true⟩], size := h.size } : Headers).buf =
      lineJoin ks ++ text ++ [0, 10, 13, 10] := by
    rw [Headers.buf_eq_segs (by simp), segs]
    simp [lineJoin, lineBytes, lineEnd, crlf]
  have hstarts : starts 0 ((ks ++ [(⟨text, true⟩ : HeaderLine)]).map (lineBytes false)) =
      starts 0 (ks.map (lineBytes false)) ++ [(lineJoin ks).length] := by
    rw [map_append, starts_append, Nat.zero_add]
    rfl
  have hlines : ({ lines := ks ++ [⟨text, true⟩], size := h.size } : Headers).lines.length ≤ h.size := by
    rw [hindex] at hroom
    simpa using hroom
  have hheld : ∀ l ∈ ks ++ [(⟨text, true⟩ : HeaderLine)], HeldText l.text := by
    intro l hl
    rcases mem_append.mp hl with hl | hl
    · exact hks l hl
    · rw [mem_singleton.mp hl]
      exact htext
  have hlen : h.buf.length = (lineJoin ks ++ text).length + (ends.length + 1) + spare.length := by
    rw [hbuf, @length_append _ (lineJoin ks ++ text), @length_append _ (0 :: ends), length_cons]
    omega
  by_cases hexact : ends = [10, 13, 10]
  · subst hexact
    have hh : Holds h { lines := ks ++ [⟨text, true⟩], size := h.size, packed := false } := by
      refine ⟨?_, ?_, ?_, ?_, rfl, hlines, hpacked, hheld, by simp⟩
      · rw [hbytes, hbuf, ← append_assoc]
        exact prefix_append _ _
      · rw [hbytes, hused, @length_append _ (lineJoin ks ++ text)]
        rfl
      · rw [hbytes, hlen]
        simp
        omega
      · rw [segs, hstarts]
        exact hindex
    exact ⟨h, hh.assertTerminate, hh⟩
  have hclosed : h.closed = false := by
    rw [← Bool.not_eq_true]
    intro hc
    obtain ⟨xs, b, hxs, -⟩ := eq_append_of_closed hc
    rw [hused, hbuf, ← append_assoc, take_left' (by simp [Nat.add_assoc])] at hxs
    have hrev := congrArg reverse hxs
    rcases ends with _ | ⟨x, _ | ⟨y, _ | ⟨z, _ | ⟨w, ws⟩⟩⟩⟩
    · simp at hrev
    · simp at hrev
    · simp at hrev
    · simp only [reverse_append, reverse_cons, reverse_nil, nil_append,
        cons_append, cons.injEq] at hrev
      exact hexact (by rw [hrev.1, hrev.2.1, hrev.2.2.1])
    · simp at hshort
      omega
  have hterm := @terminate_append h (lineJoin ks ++ text) (0 :: ends) spare
    (by rw [hbuf, append_assoc (lineJoin ks ++ text)])
    (by rw [hused, @length_append _ (lineJoin ks ++ text), length_cons])
    (by rw [hindex]; simp) (by simp [htext.ne])
    (by
      rw [getLast?_append_of_ne_nil _ htext.ne]
      exact htext.last)
    (by
      intro b hb
      rcases mem_cons.mp hb with rfl | hb
      · decide
      · exact hends b hb)
    hpacked hclosed (by omega)
  refine ⟨_, hterm, ?_, ?_, ?_, ?_, rfl, hlines, hpacked, hheld, by simp⟩
  · rw [hbytes]
    exact prefix_append _ _
  · rw [hbytes, @length_append _ (lineJoin ks ++ text)]
    rfl
  · rw [hbytes]
    simp only [length_append, length_drop] at hlen ⊢
    omega
  · rw [segs, hstarts]
    exact hindex

end CIcap
