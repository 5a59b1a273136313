import CIcap.Chunk.Rounds

/-! # The chunk parser in its memory

`Reader` stops with `wild` where `parse_chunk_data` leaves the received bytes. Here the function is
followed further: `mem` is the whole buffer that `pstrblock_read` points into, with whatever stands
behind the received bytes. `strtol` and the loops that skip bytes look at the memory and not at the
number of received bytes; the read pointer and the number of bytes are signed and move as the code moves
them. What lies outside the buffer is never looked at: the round ends there with `RawOut.outside`.

The result (`rawCall_returns`) is that a call returns, inside the buffer and with the two counts moved by
the same amount, as long as the size lines it comes to hold a number that an `int` can carry.
-/

namespace CIcap

open CText Chunked Machine List

/-- `parse_chunk_data` in its memory. The statistics of the request are left out. -/
structure RawReader where
  /-- the buffer that `pstrblock_read` points into -/
  mem : List UInt8
  /-- `pstrblock_read`, as an offset in the buffer -/
  pos : Int
  /-- `pstrblock_read_len` -/
  len : Int
  currentChunkLen : Nat := 0
  chunkBytesRead : Nat := 0
  writeToModulePending : Nat := 0
  eofReceived : Bool := false
  i206UseOriginalBody : Int := -1
  deriving DecidableEq

/-- What a round of the loop comes to. -/
inductive RawOut where
  | ret (r : ChunkRet)
  | again
  /-- a byte outside the buffer is read -/
  | outside
  deriving DecidableEq

namespace RawReader

/-- The memory from the read pointer on. -/
def view (x : RawReader) : List UInt8 := x.mem.drop x.pos.toNat

/-- The received bytes. -/
def block (x : RawReader) : List UInt8 := x.view.take x.len.toNat

/-- The end of a size line: `end` must stand at `\r\n`. -/
def endChunkDef (x : RawReader) (chunkLen : Nat) : List UInt8 → Option RawOut × RawReader
  | 13 :: 10 :: _ => (none, { x with pos := x.pos + chunkLen, len := x.len - chunkLen })
  | [] => (some .outside, x)
  | [13] => (some .outside, x)
  | _ => (some (.ret .error), x)

/-- The extension of a last chunk, `end` standing behind its `;`. -/
def lastChunkExt (x : RawReader) (chunkLen : Nat) (stop : List UInt8) : Option RawOut × RawReader :=
  match skipWhile isBlank stop with
  | none => (some .outside, x)
  | some stop =>
    let remains := x.len - ((x.view.length : Int) - stop.length)
    let ext : Except RawOut (RawReader × List UInt8) :=
      if 18 ≤ remains ∧ stop.take 18 = bytes "use-original-body=" then
        match strtol 10 (stop.drop 18) with
        | none => .error .outside
        | some (v, stop) => .ok ({ x with i206UseOriginalBody := v }, stop)
      else if 4 ≤ remains ∧ stop.take 4 ≠ bytes "ieof" then .error (.ret .error)
      else .ok (x, stop)
    match ext with
    | .error e => (some e, x)
    | .ok (x, stop) =>
      match skipWhile (· != 13) stop with
      | none => (some .outside, x)
      | some stop => endChunkDef { x with eofReceived := true } chunkLen stop

/-- A size line with the size zero. -/
def lastChunkDef (x : RawReader) (chunkLen : Nat) (stop : List UInt8) : Option RawOut × RawReader :=
  if x.len - chunkLen < 2 then (some (.ret .needsMore), x)
  else
    match x.view.drop chunkLen with
    | a :: b :: _ =>
      if a ≠ 13 ∧ b ≠ 10 then (some (.ret .error), x)
      else
        match stop with
        | 59 :: stop => lastChunkExt x (chunkLen + 2) stop
        | stop => endChunkDef x (chunkLen + 2) stop
    | _ => (some .outside, x)

/-- The `READ_CHUNK_DEF` branch: `strnstr` looks at the received bytes, `strtol` at the memory. -/
def readChunkDef (x : RawReader) : Option RawOut × RawReader :=
  if x.pos < 0 ∨ (x.mem.length : Int) < x.pos + x.len then (some .outside, x)
  else
    match findCrlf x.block with
    | none =>
      if (bufSize : Int) ≤ x.len then (some (.ret .error), x) else (some (.ret .needsMore), x)
    | some i =>
      match strtol 16 x.view with
      | none => (some .outside, x)
      | some (v, stop) =>
        let tmp := toInt32 v
        if tmp = 0 ∧ stop.length = x.view.length then (some (.ret .error), x)
        else
          let x := { x with currentChunkLen := toUInt32 tmp, chunkBytesRead := 0 }
          match skipWhile isBlank stop with
          | none => (some .outside, x)
          | some stop =>
            if x.currentChunkLen = 0 then lastChunkDef x (i + 2) stop
            else
              endChunkDef { x with currentChunkLen := (x.currentChunkLen + 2) % 2 ^ 32 } (i + 2) stop

/-- The `READ_CHUNK_DATA` branch. A negative `remains` moves the read pointer backwards. -/
def readChunkData (x : RawReader) : RawReader :=
  let remains := toInt32 ((x.currentChunkLen : Int) - x.chunkBytesRead)
  if remains ≤ x.len then
    { x with
      writeToModulePending := if 2 < remains then (remains - 2).toNat else 0
      chunkBytesRead := toUInt32 (x.chunkBytesRead + remains)
      pos := x.pos + remains
      len := x.len - remains }
  else
    let tmp := remains - x.len
    { x with
      writeToModulePending := if tmp < 2 then (x.len - tmp).toNat else x.len.toNat
      chunkBytesRead := toUInt32 (x.chunkBytesRead + x.len)
      pos := x.pos + x.len
      len := 0 }

/-- A round once the size line, if there was one to read, is taken. -/
def chunkRound (x : RawReader) : RawOut × RawReader :=
  if x.currentChunkLen = 0 then (.ret .eof, x)
  else if x.writeToModulePending ≠ 0 then (.ret .ok, x)
  else if x.len ≤ 0 then (.ret .needsMore, x)
  else if x.readChunkData.len = 0 then (.ret .needsMore, x.readChunkData)
  else (.again, x.readChunkData)

/-- A round of the `while (1)` of `parse_chunk_data`. -/
def round (x : RawReader) : RawOut × RawReader :=
  let (ret, x) := if x.currentChunkLen = x.chunkBytesRead then x.readChunkDef else (none, x)
  match ret with
  | some out => (out, x)
  | none => x.chunkRound

/-- Up to `n` rounds. -/
def rounds : Nat → RawReader → RawOut × RawReader
  | 0, x => (.again, x)
  | n + 1, x =>
    match x.round with
    | (.again, x) => rounds n x
    | res => res

/-- `parse_chunk_data`, with at most `n` rounds. -/
def call (n : Nat) (x : RawReader) : RawOut × RawReader :=
  if x.writeToModulePending ≠ 0 then (.ret .error, x) else x.rounds n

/-! ## Size lines -/

/-- A size line the parser can take: it does not consist of white space, its number is the size of a
chunk that an `int` can carry together with the line end, and a number follows `use-original-body=`. -/
structure SizeFits (line : List UInt8) : Prop where
  number : ∃ b ∈ line, isSpace b = false
  size : ∀ v stop, strtol 16 (line ++ crlf) = some (v, stop) → -2 ≤ toInt32 v ∧ toInt32 v ≤ 2 ^ 31 - 3
  offset : ∀ front back, line = front ++ bytes "use-original-body=" ++ back → ∃ b ∈ back, isSpace b = false

/-- If the round reads a size line, the parser can take it. -/
def RoundFits (x : RawReader) : Prop :=
  x.currentChunkLen = x.chunkBytesRead → ∀ i, findCrlf x.block = some i → SizeFits (x.block.take i)

/-- The parser can take every size line that the call comes to. -/
def CallFits (x : RawReader) : Prop := ∀ n x', x.rounds n = (.again, x') → x'.RoundFits

/-! ## One round -/

/-- The received bytes are in the buffer, and a chunk is not read further than it goes. -/
structure Inv (x : RawReader) : Prop where
  pos : 0 ≤ x.pos
  len : 0 ≤ x.len
  fits : x.pos + x.len ≤ x.mem.length
  read : x.chunkBytesRead ≤ x.currentChunkLen
  small : x.currentChunkLen < 2 ^ 31

/-- The read pointer has moved forwards, and the number of bytes with it. -/
structure Moved (x x' : RawReader) : Prop where
  mem : x'.mem = x.mem
  forwards : x.pos ≤ x'.pos
  both : x'.pos + x'.len = x.pos + x.len
  inv : x'.Inv

variable {x x₁ : RawReader} {n : Nat}

theorem Moved.trans {y z : RawReader} (h : x.Moved y) (h' : y.Moved z) : x.Moved z :=
  ⟨h'.mem.trans h.mem, h.forwards.trans h'.forwards, h'.both.trans h.both, h'.inv⟩

/-- What the reading of a size line comes to when it stays in the buffer. -/
structure DefStays (x : RawReader) (res : Option RawOut × RawReader) : Prop where
  moved : x.Moved res.2
  returns : ∀ out, res.1 = some out → ∃ r, out = .ret r
  shorter : res.1 = none → res.2.len < x.len
  fresh : res.1 = none → res.2.chunkBytesRead = 0

theorem DefStays.of_ret (hx : x.Moved x₁) (r : ChunkRet) :
    DefStays x (some (.ret r), x₁) :=
  ⟨hx, fun _ hout => ⟨r, (Option.some.inj hout).symm⟩, nofun, nofun⟩

/-- Two bytes are enough to see whether the line ends. -/
theorem endChunkDef_stays {stop : List UInt8} (hstop : 2 ≤ stop.length)
    (hx : x.Moved x₁) (hsame : x₁.len = x.len) (hfresh : x₁.chunkBytesRead = 0) (hpos : 0 < n)
    (hn : n ≤ x.len) : DefStays x (x₁.endChunkDef n stop) := by
  have herr : DefStays x (some (.ret .error), x₁) := .of_ret hx _
  have hboth := hx.both
  rcases stop with _ | ⟨a, _ | ⟨b, stop⟩⟩
  · simp at hstop
  · simp at hstop
  by_cases hcr : a = 13 ∧ b = 10
  · obtain ⟨rfl, rfl⟩ := hcr
    refine ⟨⟨hx.mem, ?_, ?_, ?_, ?_, ?_, hx.inv.read, hx.inv.small⟩, nofun, fun _ => ?_, fun _ => hfresh⟩
    · show x.pos ≤ x₁.pos + n
      omega
    · show x₁.pos + n + (x₁.len - n) = x.pos + x.len
      omega
    · show 0 ≤ x₁.pos + n
      have := hx.inv.pos
      omega
    · show 0 ≤ x₁.len - n
      omega
    · show x₁.pos + n + (x₁.len - n) ≤ x₁.mem.length
      have := hx.inv.fits
      omega
    · show x₁.len - n < x.len
      omega
  · unfold endChunkDef
    split
    · rename_i heq
      obtain ⟨rfl, htail⟩ := cons.inj heq
      exact absurd ⟨rfl, (cons.inj htail).1⟩ hcr
    · rename_i heq
      cases heq
    · rename_i heq
      cases heq
    · exact herr

/-- A text without a carriage return that stands in front of the line end stands in the line. -/
theorem take_before_cr {t rest text : List UInt8} (hcr : (13 : UInt8) ∉ text)
    (h : (t ++ 13 :: rest).take text.length = text) : t = text ++ t.drop text.length := by
  have hle : text.length ≤ t.length := by
    by_contra hlt
    apply hcr
    rw [← h, take_append]
    obtain ⟨k, hk⟩ : ∃ k, text.length - t.length = k + 1 := ⟨text.length - t.length - 1, by omega⟩
    rw [hk]
    simp
  rw [take_append_of_le_length hle] at h
  calc t = t.take text.length ++ t.drop text.length := (take_append_drop _ _).symm
    _ = text ++ t.drop text.length := by rw [h]

theorem lastChunkExt_stays {line suf rest : List UInt8}
    (hline : SizeFits line) (hsuf : suf <:+ line) (hx : x.Moved x₁) (hsame : x₁.len = x.len)
    (hfresh : x₁.chunkBytesRead = 0) (hpos : 0 < n) (hn : n ≤ x.len) :
    DefStays x (x₁.lastChunkExt n (suf ++ 13 :: 10 :: rest)) := by
  -- the last step, from a place in the line on
  have hend : ∀ (x₂ : RawReader) (t : List UInt8), x.Moved x₂ → x₂.len = x.len →
      x₂.chunkBytesRead = 0 → DefStays x (match skipWhile (· != 13) (t ++ 13 :: 10 :: rest) with
        | none => (some .outside, x₂)
        | some stop => endChunkDef { x₂ with eofReceived := true } n stop) := by
    intro x₂ t hx₂ hsame₂ hfresh₂
    obtain ⟨u, hu, -⟩ := skipWhile_line (p := (· != 13)) (e := 13) (by decide) t (10 :: rest)
    rw [hu]
    refine endChunkDef_stays (by rw [length_append]; exact Nat.le_add_left 2 _) ⟨hx₂.mem, hx₂.forwards, hx₂.both, ?_⟩ hsame₂ hfresh₂ hpos hn
    exact ⟨hx₂.inv.pos, hx₂.inv.len, hx₂.inv.fits, hx₂.inv.read, hx₂.inv.small⟩
  obtain ⟨t, ht, hsuft⟩ := skipWhile_line (p := isBlank) (e := 13) (by decide) suf (10 :: rest)
  unfold lastChunkExt
  rw [ht]
  dsimp only
  by_cases huse : 18 ≤ x₁.len - ((x₁.view.length : Int) - (t ++ 13 :: 10 :: rest).length) ∧
      (t ++ 13 :: 10 :: rest).take 18 = bytes "use-original-body="
  · rw [if_pos huse]
    have htext := @take_before_cr t (10 :: rest) (bytes "use-original-body=") (by decide) huse.2
    obtain ⟨front, hfront⟩ := hsuft.trans hsuf
    -- a number follows in the line
    have hnum := hline.offset front (t.drop 18) (by
      rw [← hfront, append_assoc]
      exact congrArg (front ++ ·) htext)
    obtain ⟨v, u, hread, -⟩ := @strtol_line 10 (by omega) _ hnum (10 :: rest)
    have hdrop : (t ++ 13 :: 10 :: rest).drop 18 = t.drop 18 ++ 13 :: 10 :: rest := by
      have hlen : 18 ≤ t.length := by
        rw [htext, length_append]
        exact Nat.le_add_right 18 _
      rw [drop_append_of_le_length hlen]
    rw [hdrop, hread]
    exact hend { x₁ with i206UseOriginalBody := v } u
      ⟨hx.mem, hx.forwards, hx.both, hx.inv.pos, hx.inv.len, hx.inv.fits, hx.inv.read, hx.inv.small⟩ hsame
      hfresh
  · rw [if_neg huse]
    by_cases hieof : 4 ≤ x₁.len - ((x₁.view.length : Int) - (t ++ 13 :: 10 :: rest).length) ∧
        (t ++ 13 :: 10 :: rest).take 4 ≠ bytes "ieof"
    · rw [if_pos hieof]
      exact .of_ret hx _
    · rw [if_neg hieof]
      exact hend x₁ t hx hsame hfresh

/-- The memory begins with the line, its end and the received bytes behind it. -/
theorem view_split {i : Nat} (hx : x.Inv) (hcr : findCrlf x.block = some i) :
    ∃ line rest, x.view = line ++ 13 :: 10 :: rest ∧ x.block.take i = line ∧ line.length = i ∧
      (i : Int) + 2 ≤ x.len := by
  obtain ⟨more, hblk⟩ := findCrlf_split hcr
  have hlt := findCrlf_lt hcr
  have hlen : (x.block.length : Int) ≤ x.len := by
    unfold block
    rw [length_take]
    have := hx.len
    omega
  refine ⟨x.block.take i, more ++ x.view.drop x.len.toNat, ?_, rfl, ?_, by omega⟩
  · calc x.view = x.block ++ x.view.drop x.len.toNat := (take_append_drop _ _).symm
      _ = (x.block.take i ++ 13 :: 10 :: more) ++ x.view.drop x.len.toNat := by rw [← hblk]
      _ = x.block.take i ++ 13 :: 10 :: (more ++ x.view.drop x.len.toNat) := by
          rw [append_assoc]
          rfl
  · rw [length_take]
    omega

theorem view_length (hx : x.Inv) : x.len ≤ x.view.length := by
  unfold view
  rw [length_drop]
  have := hx.pos
  have := hx.fits
  omega

theorem lastChunkDef_stays {i : Nat} {line suf rest : List UInt8}
    (hline : SizeFits line) (hsuf : suf <:+ line) (hx : x.Moved x₁) (hsame : x₁.len = x.len)
    (hfresh : x₁.chunkBytesRead = 0) :
    DefStays x (x₁.lastChunkDef (i + 2) (suf ++ 13 :: 10 :: rest)) := by
  unfold lastChunkDef
  split_ifs with hmore
  · exact .of_ret hx _
  have hn : ((i + 2 + 2 : Nat) : Int) ≤ x.len := by
    omega
  split
  · split_ifs with hbad
    · exact .of_ret hx _
    split
    · rename_i stop heq
      -- the `;` is in the line
      rcases suf with _ | ⟨b, suf⟩
      · cases (cons.inj heq).1
      · obtain ⟨-, rfl⟩ := cons.inj heq
        exact lastChunkExt_stays hline ((suffix_cons b suf).trans hsuf) hx hsame hfresh (by omega)
          hn
    · refine endChunkDef_stays ?_ hx hsame hfresh (by omega) hn
      rw [length_append]
      exact Nat.le_add_left 2 _
  · -- the two bytes have been received
    rename_i hshort
    have hlen : 2 ≤ (x₁.view.drop (i + 2)).length := by
      rw [length_drop]
      have := view_length hx.inv
      omega
    rcases hd : x₁.view.drop (i + 2) with _ | ⟨a, _ | ⟨b, more⟩⟩
    · rw [hd] at hlen
      simp at hlen
    · rw [hd] at hlen
      simp at hlen
    · exact absurd hd (hshort a b more)

/-- **Reading a size line** that the parser can take stays in the buffer. -/
theorem readChunkDef_stays (hx : x.Inv) (hfits : x.RoundFits)
    (hdef : x.currentChunkLen = x.chunkBytesRead) : DefStays x x.readChunkDef := by
  have hsame : x.Moved x := ⟨rfl, le_rfl, rfl, hx⟩
  have hret : ∀ r, DefStays x (some (.ret r), x) := .of_ret hsame
  unfold readChunkDef
  rw [if_neg (by have := hx.pos; have := hx.fits; omega)]
  cases hcr : findCrlf x.block with
  | none =>
    split_ifs <;> exact hret _
  | some i =>
    obtain ⟨line, rest, hview, htake, hi, hlen⟩ := view_split hx hcr
    have hline : SizeFits line := htake ▸ hfits hdef i hcr
    obtain ⟨v, suf, hnum, hsuf⟩ := @strtol_line 16 (by omega) _ hline.number [10]
    have hsize := hline.size v _ hnum
    have hnum' : strtol 16 (line ++ 13 :: 10 :: rest) = some (v, suf ++ 13 :: 10 :: rest) := by
      simpa using strtol_append hnum rest
    obtain ⟨t, hskip, hsuft⟩ := skipWhile_line (p := isBlank) (e := 13) (by decide) suf (10 :: rest)
    rw [hview, hnum']
    dsimp only
    by_cases hnone : toInt32 v = 0 ∧
        (suf ++ 13 :: 10 :: rest).length = (line ++ 13 :: 10 :: rest).length
    · rw [if_pos hnone]
      exact hret _
    rw [if_neg hnone, hskip]
    dsimp only
    -- the size of the next chunk is stored
    have hstore : ∀ n : Nat, n < 2 ^ 31 →
        x.Moved { x with currentChunkLen := n, chunkBytesRead := 0 } := fun n hn =>
      ⟨rfl, le_rfl, rfl, hx.pos, hx.len, hx.fits, Nat.zero_le _, hn⟩
    by_cases hzero : toUInt32 (toInt32 v) = 0
    · rw [if_pos hzero]
      exact lastChunkDef_stays hline (hsuft.trans hsuf) (hstore _ (by omega)) rfl rfl
    · rw [if_neg hzero]
      refine endChunkDef_stays ?_ (hstore _ ?_) rfl rfl (by omega) (by push_cast; omega)
      · rw [length_append]
        exact Nat.le_add_left 2 _
      · unfold toUInt32
        omega

theorem readChunkData_stays (hx : x.Inv) (hlen : 0 < x.len)
    (hread : x.chunkBytesRead < x.currentChunkLen) :
    x.Moved x.readChunkData ∧ x.readChunkData.len < x.len := by
  have hsmall := hx.small
  have hfits := hx.fits
  have hpos := hx.pos
  have hrem : toInt32 ((x.currentChunkLen : Int) - x.chunkBytesRead) =
      ((x.currentChunkLen - x.chunkBytesRead : Nat) : Int) := by
    rw [← Nat.cast_sub hx.read]
    exact toInt32_of_lt (by omega)
  unfold readChunkData
  rw [hrem]
  by_cases hle : ((x.currentChunkLen - x.chunkBytesRead : Nat) : Int) ≤ x.len
  · rw [if_pos hle]
    have hmod : toUInt32 (x.chunkBytesRead + ((x.currentChunkLen - x.chunkBytesRead : Nat) : Int)) =
        x.currentChunkLen := by
      rw [show (x.chunkBytesRead : Int) + ((x.currentChunkLen - x.chunkBytesRead : Nat) : Int) =
        (x.currentChunkLen : Nat) by omega]
      exact toUInt32_of_lt (by omega)
    refine ⟨⟨rfl, ?_, ?_, ?_, ?_, ?_, ?_, hsmall⟩, ?_⟩ <;> dsimp only <;> omega
  · rw [if_neg hle]
    have hmod : toUInt32 (x.chunkBytesRead + x.len) = x.chunkBytesRead + x.len.toNat := by
      rw [show (x.chunkBytesRead : Int) + x.len = ((x.chunkBytesRead + x.len.toNat : Nat) : Int) by omega]
      exact toUInt32_of_lt (by omega)
    refine ⟨⟨rfl, ?_, ?_, ?_, ?_, ?_, ?_, hsmall⟩, ?_⟩ <;> dsimp only <;> omega

/-- **A round** stays in the buffer; if the loop goes on, fewer bytes are left. -/
theorem round_stays (hx : x.Inv) (hfits : x.RoundFits) :
    x.Moved x.round.2 ∧ x.round.1 ≠ .outside ∧ (x.round.1 = .again → x.round.2.len < x.len) := by
  -- behind the size line
  have hrest : ∀ x₁ : RawReader, x.Moved x₁ → x₁.len ≤ x.len →
      (x₁.currentChunkLen ≠ 0 → x₁.chunkBytesRead < x₁.currentChunkLen) →
      x.Moved x₁.chunkRound.2 ∧ x₁.chunkRound.1 ≠ .outside ∧
        (x₁.chunkRound.1 = .again → x₁.chunkRound.2.len < x.len) := by
    intro x₁ hx₁ hle hinside
    unfold chunkRound
    split_ifs with hcur hpend hlen hnil
    · exact ⟨hx₁, nofun, nofun⟩
    · exact ⟨hx₁, nofun, nofun⟩
    · exact ⟨hx₁, nofun, nofun⟩
    · obtain ⟨hmoved, -⟩ := readChunkData_stays hx₁.inv (by omega) (hinside hcur)
      exact ⟨hx₁.trans hmoved, nofun, nofun⟩
    · obtain ⟨hmoved, hlt⟩ := readChunkData_stays hx₁.inv (by omega) (hinside hcur)
      exact ⟨hx₁.trans hmoved, nofun, fun _ => hlt.trans_le hle⟩
  unfold round
  by_cases hdef : x.currentChunkLen = x.chunkBytesRead
  · rw [if_pos hdef]
    have hstays := readChunkDef_stays hx hfits hdef
    rcases hres : x.readChunkDef with ⟨ret, x₁⟩
    rw [hres] at hstays
    cases ret with
    | some out =>
      obtain ⟨r, rfl⟩ := hstays.returns out rfl
      exact ⟨hstays.moved, nofun, nofun⟩
    | none =>
      refine hrest x₁ hstays.moved (hstays.shorter rfl).le fun hcur => ?_
      rw [hstays.fresh rfl]
      exact Nat.pos_of_ne_zero hcur
  · rw [if_neg hdef]
    refine hrest x ⟨rfl, le_rfl, rfl, hx⟩ le_rfl fun _ => ?_
    have := hx.read
    omega

/-! ## A call -/

theorem CallFits.next (h : x.CallFits) (hround : x.round = (.again, x₁)) : x₁.CallFits := by
  intro n x' hn
  refine h (n + 1) x' ?_
  rw [rounds, hround]
  exact hn

/-- More rounds than there are bytes are not needed. -/
theorem rounds_return (hx : x.Inv) (hfits : x.CallFits) (hn : x.len < n) :
    ∃ r x', x.rounds n = (.ret r, x') ∧ x.Moved x' := by
  induction n generalizing x with
  | zero =>
    have := hx.len
    omega
  | succ n ih =>
    obtain ⟨hmoved, hin, hless⟩ := round_stays hx (hfits 0 x rfl)
    rw [rounds]
    rcases hres : x.round with ⟨out, x₁⟩
    rw [hres] at hmoved hin hless
    cases out with
    | ret r => exact ⟨r, x₁, rfl, hmoved⟩
    | outside => exact absurd rfl hin
    | again =>
      have hlt := hless rfl
      obtain ⟨r, x', hrest, hmoved'⟩ := ih hmoved.inv (hfits.next hres) (by
        show x₁.len < n
        dsimp only at hlt
        omega)
      exact ⟨r, x', hrest, hmoved.trans hmoved'⟩

theorem call_return (hx : x.Inv) (hfits : x.CallFits) (hn : x.len < n) :
    ∃ r x', x.call n = (.ret r, x') ∧ x.Moved x' := by
  unfold call
  split_ifs
  · exact ⟨_, x, rfl, rfl, le_rfl, rfl, hx⟩
  · exact rounds_return hx hfits hn

end RawReader

/-! ## Reads and calls -/

/-- What the caller does: a read that brings bytes to the buffer `rbuf`, in which `stale` stands behind
them; a call of the parser; data that are handed on to the service. -/
inductive RawAct where
  | read (got stale : List UInt8)
  | parse
  | take (n : Nat)

/-- One action. `net_data_read` moves the received bytes to the front of `rbuf`. -/
def rawStep (x : RawReader) : RawAct → RawReader
  | .read got stale =>
    if (bufSize : Int) ≤ x.len then x
    else
      let got := got.take (bufSize - x.len.toNat)
      { x with mem := (x.block ++ got ++ stale).take bufSize, pos := 0, len := x.len + got.length }
  | .parse => (x.call (x.len.toNat + 1)).2
  | .take n => { x with writeToModulePending := x.writeToModulePending - n }

theorem rawStep_inv {x : RawReader} (hx : x.Inv) (a : RawAct)
    (hfits : a = .parse → x.CallFits) : (rawStep x a).Inv := by
  have hlen := hx.len
  cases a with
  | read got stale =>
    unfold rawStep
    split_ifs with hfull
    · exact hx
    have hblock : x.block.length = x.len.toNat := by
      unfold RawReader.block
      rw [length_take]
      have := RawReader.view_length hx
      omega
    refine ⟨le_rfl, ?_, ?_, hx.read, hx.small⟩
    · show 0 ≤ x.len + _
      omega
    · simp only [length_take, length_append]
      omega
  | parse =>
    obtain ⟨r, x', hcall, hmoved⟩ := RawReader.call_return hx (hfits rfl) (n := x.len.toNat + 1) (by omega)
    unfold rawStep
    rw [hcall]
    exact hmoved.inv
  | take n => exact { hx with }

/-- **Calls return inside the buffer.** The request begins anywhere in a buffer, bytes are read and the
parser is called in any order. As long as the size lines that the calls come to are lines the parser can
take, the received bytes stay in the buffer; and a further call on such lines returns, having moved the
read pointer forwards and the number of received bytes down by the same amount, which is not more than
what was there. -/
theorem rawCall_returns {x₀ : RawReader} (h₀ : x₀.Inv) (acts : List RawAct)
    (hok : AllSteps rawStep (fun x a => a = .parse → x.CallFits) x₀ acts) (x : RawReader)
    (hx : x = run rawStep x₀ acts) (hfits : x.CallFits) :
    (0 ≤ x.pos ∧ 0 ≤ x.len ∧ x.pos + x.len ≤ x.mem.length) ∧
      ∃ n r x', x.call n = (.ret r, x') ∧ x'.mem = x.mem ∧
        ∃ k : Nat, (k : Int) ≤ x.len ∧ x'.pos = x.pos + k ∧ x'.len = x.len - k := by
  have hinv : x.Inv := by
    rw [hx]
    exact run_inv (P := RawReader.Inv)
      (fun (x : RawReader) a (h : x.Inv) (hfit : a = .parse → x.CallFits) => rawStep_inv h a hfit) h₀ hok
  obtain ⟨r, x', hcall, hmoved⟩ := RawReader.call_return hinv hfits (n := x.len.toNat + 1) (by
    omega)
  refine ⟨⟨hinv.pos, hinv.len, hinv.fits⟩, _, r, x', hcall, hmoved.mem, (x'.pos - x.pos).toNat, ?_, ?_, ?_⟩
  all_goals
    have hforw := hmoved.forwards
    have hboth := hmoved.both
    have hlen := hmoved.inv.len
    omega

/-- The last chunk is read and parsed. -/
theorem rawCall_returns_last :
    let x := run rawStep { mem := [], pos := 0, len := 0 } [.read (bytes "0\r\n\r\n") []]
    (0 ≤ x.pos ∧ 0 ≤ x.len ∧ x.pos + x.len ≤ x.mem.length) ∧
      ∃ n r x', x.call n = (.ret r, x') ∧ x'.mem = x.mem ∧
        ∃ k : Nat, (k : Int) ≤ x.len ∧ x'.pos = x.pos + k ∧ x'.len = x.len - k := by
  intro x
  refine @rawCall_returns { mem := [], pos := 0, len := 0 }
    ⟨le_rfl, le_rfl, le_rfl, le_rfl, by decide⟩ [.read (bytes "0\r\n\r\n") []] ⟨nofun, trivial⟩ x rfl ?_
  have hline : RawReader.SizeFits (bytes "0") := by
    refine ⟨⟨48, by decide, by decide⟩, fun v stop hnum => ?_, fun front back hline => ?_⟩
    · cases hnum
      decide
    · have hlen := congrArg length hline
      rw [length_append, length_append] at hlen
      have h1 : (bytes "0").length = 1 := by decide
      have h18 : (bytes "use-original-body=").length = 18 := by decide
      omega
  intro n x' hn
  cases n with
  | zero =>
    obtain rfl : x = x' := (Prod.mk.inj hn).2
    intro _ i hcr
    obtain rfl := Option.some.inj hcr
    exact hline
  | succ n =>
    -- the first round returns
    have hret : x.round.1 = .ret .eof := by decide
    rw [RawReader.rounds] at hn
    rcases hres : x.round with ⟨out, x₁⟩
    rw [hres] at hret hn
    subst hret
    cases hn

/-- The read buffer with a text at its front. -/
def rbufWith (text : List UInt8) : List UInt8 := text ++ replicate (bufSize - text.length) 0

/-- The text has been received, and a chunk of `n` bytes is complete. -/
def rawBack (text : List UInt8) (n : Nat) : RawReader :=
  { mem := rbufWith text, pos := 0, len := 11, currentChunkLen := n, chunkBytesRead := n }

set_option maxRecDepth 100000 in
/-- A size of `2^32 - 12` moves the read pointer back to the beginning of the line: the loop never ends.
With `2^32 - 256` the next byte that is read lies in front of the buffer. -/
theorem rawCall_fails :
    (let x : RawReader := { mem := rbufWith (bytes "fffffff4\r\nX"), pos := 0, len := 11 }
     x.Inv ∧ ∀ n, (x.call n).1 = .again) ∧
    (let x : RawReader := { mem := rbufWith (bytes "ffffff00\r\nX"), pos := 0, len := 11 }
     x.Inv ∧ (x.call 2).1 = .outside) := by
  refine ⟨⟨⟨le_rfl, by decide, by decide +kernel, le_rfl, by decide⟩, fun n => ?_⟩,
    ⟨⟨le_rfl, by decide, by decide +kernel, le_rfl, by decide⟩, by decide +kernel⟩⟩
  -- from the second round on the state stays the same
  let again := rawBack (bytes "fffffff4\r\nX") 4294967286
  have hfirst : (rawBack (bytes "fffffff4\r\nX") 0).round = (.again, again) := by decide +kernel
  have hagain : again.round = (.again, again) := by decide +kernel
  have hforever : ∀ n, (RawReader.rounds n again).1 = .again := by
    intro n
    induction n with
    | zero => rfl
    | succ n ih =>
      rw [RawReader.rounds, hagain]
      exact ih
  change ((rawBack (bytes "fffffff4\r\nX") 0).call n).1 = .again
  have hnone : ¬ (rawBack (bytes "fffffff4\r\nX") 0).writeToModulePending ≠ 0 := by decide
  unfold RawReader.call
  rw [if_neg hnone]
  cases n with
  | zero => rfl
  | succ n =>
    rw [RawReader.rounds, hfirst]
    exact hforever n

end CIcap
