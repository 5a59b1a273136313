import CIcap.Lib.Chunked
import CIcap.Chunk.Reader

/-! # The chunk parser on a well-formed stream

`Reader.At r p` relates the saved counters of a request to a position `p` in a chunked
stream. `parseChunkData_spec` is the specification of one call: from a request at a position,
whatever prefix of the remaining bytes is in the read buffer, the call delivers data, moves to
a later position and reports `CI_EOF` exactly when that position is the end.
-/

namespace CIcap

open CText Chunked List

/-! ## The last chunk of an ICAP body -/

/-- The last chunk: `0`, `0; ieof` or `0; use-original-body=n`. -/
inductive LastChunk where
  | plain
  | ieof
  | useOriginalBody (n : Nat)
  deriving DecidableEq

namespace LastChunk

/-- The extension after the zero. -/
def ext : LastChunk → List UInt8
  | plain => []
  | ieof => 59 :: bytes " ieof"
  | useOriginalBody n => 59 :: bytes " use-original-body=" ++ natText 10 n

def line (t : LastChunk) : List UInt8 := 48 :: t.ext

def enc (t : LastChunk) : List UInt8 := t.line ++ crlf ++ crlf

/-- The offset of a partial response is a 64 bit `long`. -/
def Fits : LastChunk → Prop
  | useOriginalBody n => n < 2 ^ 63
  | _ => True

theorem cr_not_mem_line (t : LastChunk) : (13 : UInt8) ∉ t.line := by
  cases t with
  | plain | ieof => decide
  | useOriginalBody n =>
    simp only [line, ext, mem_cons, cons_append, mem_append, not_or]
    refine ⟨by decide, by decide, by decide, fun h => ?_⟩
    exact (not_space_of_digit (natText_allDigits (by omega) (by omega) n 13 h) (by omega)).2.2.2 rfl

theorem enc_ne_nil (t : LastChunk) : t.enc ≠ [] := by simp [enc, line]

end LastChunk

/-- A chunk the parser can take: its length with the line end is a positive `int`, and its
size line fits the read buffer. -/
def ChunkFits (c : Chunk) : Prop := c.data.length ≤ 2 ^ 31 - 3 ∧ c.size.length + 2 ≤ bufSize

/-! ## Requests at a position -/

/-- The saved counters say that the request stands at `p`. -/
def Reader.At (r : Reader) : Pos → Prop
  | .line _ => r.currentChunkLen = r.chunkBytesRead
  | .data d _ => r.currentChunkLen = r.chunkBytesRead + (d.length + 2) ∧ r.currentChunkLen < 2 ^ 31
  | .lf _ => r.currentChunkLen = r.chunkBytesRead + 1 ∧ r.currentChunkLen < 2 ^ 31
  | .finished => r.currentChunkLen = 0 ∧ r.chunkBytesRead = 0

variable {n : Nat} {b l : List UInt8} {r : Reader} {t : LastChunk}

theorem toInt32_of_lt (h : n < 2 ^ 31) : toInt32 (n : Int) = n := by
  unfold toInt32
  rw [Int.bmod_def]
  omega

theorem toUInt32_of_lt (h : n < 2 ^ 32) : toUInt32 (n : Int) = n := by
  unfold toUInt32
  omega

/-- A block that is read off a stream: either it ends inside the first part, or it holds
the first part. -/
theorem split_stream {i A B : List UInt8} (h : b ++ i = A ++ B) :
    (∃ t, t ≠ [] ∧ A = b ++ t ∧ i = t ++ B) ∨ ∃ b', b = A ++ b' ∧ B = b' ++ i := by
  rcases append_eq_append_iff.mp h with ⟨t, hA, hi⟩ | ⟨b', hb, hB⟩
  · by_cases ht : t = []
    · subst ht
      exact Or.inr ⟨[], by simpa using hA.symm, by simpa using hi.symm⟩
    · exact Or.inl ⟨t, ht, hA, hi⟩
  · exact Or.inr ⟨b', hb, hB⟩

/-- No line end in a block that stops inside a line. -/
theorem findCrlf_inside {t : List UInt8} (hl : (13 : UInt8) ∉ l) (ht : t ≠ [])
    (h : l ++ crlf = b ++ t) : findCrlf b = none := by
  -- `b` is a prefix of `l`, or `l` with the `\r`
  rcases append_eq_append_iff.mp h with ⟨u, hb, hu⟩ | ⟨u, hb, -⟩
  · rcases u with _ | ⟨x, u⟩
    · rw [hb, append_nil]
      exact findCrlf_eq_none hl
    have hx : x = 13 ∧ u = [] := by
      rcases t with _ | ⟨y, t⟩
      · exact absurd rfl ht
      · simp only [crlf, cons_append, cons.injEq] at hu
        obtain ⟨rfl, hu⟩ := hu
        rcases u with _ | ⟨z, u⟩
        · exact ⟨rfl, rfl⟩
        · have := congrArg length hu
          simp at this
    rw [hb, hx.1, hx.2]
    exact findCrlf_append_cr hl
  · refine findCrlf_eq_none (fun h13 => hl ?_)
    rw [hb]
    exact mem_append_left _ h13

/-! ## The size line -/

/-- The size line of a chunk is still incomplete: nothing is taken. -/
theorem readChunkDef_inside {t : List UInt8} (hl : (13 : UInt8) ∉ l)
    (hlen : l.length + 2 ≤ bufSize) (ht : t ≠ []) (h : l ++ crlf = r.pstrblockRead ++ t) :
    r.pstrblockRead.length < bufSize ∧ readChunkDef r = (some .needsMore, r) := by
  have hcr := findCrlf_inside hl ht h
  have hlt : r.pstrblockRead.length < bufSize := by
    have hlen' := congrArg length h
    have htpos : 0 < t.length := length_pos_iff.mpr ht
    simp only [length_append, crlf_length] at hlen'
    omega
  refine ⟨hlt, ?_⟩
  simp only [readChunkDef, hcr]
  rw [if_neg (by omega)]

/-- The size line of a chunk is in the block: it is taken, and the counters say that the data
of the chunk follow. -/
theorem readChunkDef_chunk {c : Chunk} (hc : ChunkFits c)
    (h : r.pstrblockRead = c.size ++ crlf ++ b) :
    readChunkDef r = (none, { r with
      pstrblockRead := b
      currentChunkLen := c.data.length + 2
      chunkBytesRead := 0
      requestBytesIn := r.requestBytesIn + (c.size.length + 2) }) := by
  obtain ⟨hdata, -⟩ := hc
  have hpos := c.data_pos
  have hblk : r.pstrblockRead = c.size ++ 13 :: 10 :: b := by
    rw [h]; simp [crlf]
  have hcr : findCrlf r.pstrblockRead = some c.size.length := by
    rw [hblk]; exact findCrlf_append c.cr_not_mem_size _
  have hst : strtol 16 r.pstrblockRead = some ((c.data.length : Int), 13 :: 10 :: b) := by
    rw [hblk, strtol_digits c.size_ne c.size_digits (by omega) (by decide) (by decide)
      (by rw [c.size_value]; omega), c.size_value]
  have htmp : toInt32 (c.data.length : Int) = c.data.length := toInt32_of_lt (by omega)
  have huns : toUInt32 (c.data.length : Int) = c.data.length := toUInt32_of_lt (by omega)
  have hskip : skipWhile isBlank (13 :: 10 :: b) = some (13 :: 10 :: b) :=
    skipWhile_cons_of_not _ (by decide)
  have hmod : (c.data.length + 2) % 2 ^ 32 = c.data.length + 2 := Nat.mod_eq_of_lt (by omega)
  have hne : ¬ ((c.data.length : Int) = 0 ∧ (13 :: 10 :: b).length = r.pstrblockRead.length) := by
    intro hcon; omega
  have hne0 : c.data.length ≠ 0 := by omega
  have hdrop : r.pstrblockRead.drop (c.size.length + 2) = b := by
    rw [h, drop_append_of_le_length (by simp)]
    simp
  simp only [readChunkDef, hcr, hst, htmp, huns, if_neg hne, hskip, if_neg hne0, hmod,
    endChunkDef, hdrop]

/-! ## The data of a chunk -/

/-- Reading inside a chunk, the signed computation done: `m` bytes of the chunk are to come, the line
end with them, and as many of them are taken as there are in the block. -/
theorem readChunkData_eq {m : Nat}
    (hrem : toInt32 ((r.currentChunkLen : Int) - r.chunkBytesRead) = m) :
    readChunkData r = some (r.pstrblockRead.take (min (m - 2) r.pstrblockRead.length),
      takeChunkData r (min m r.pstrblockRead.length) (min (m - 2) r.pstrblockRead.length)) := by
  unfold readChunkData
  dsimp only
  rw [hrem, Int.toNat_natCast]
  by_cases hle : m ≤ r.pstrblockRead.length
  · have hpend : (if 2 < m then m - 2 else 0) = min (m - 2) r.pstrblockRead.length := by
      split_ifs <;> omega
    rw [if_pos (by omega), if_neg (by omega), hpend, min_eq_left hle]
  · have hpend : (if m - r.pstrblockRead.length < 2 then
          r.pstrblockRead.length - (m - r.pstrblockRead.length)
        else r.pstrblockRead.length) = min (m - 2) r.pstrblockRead.length := by
      split_ifs <;> omega
    rw [if_neg (by omega), hpend, min_eq_right (Nat.le_of_not_le hle)]

/-! ## Moving along the stream

The stream that is still to come is what is in the read buffer followed by `input`, the bytes
the connection will deliver. It consists of the rest of the chunked body up to the last chunk
and of bytes `rest` that do not belong to the body. -/

/-- From `r` at `p` the parser has come to `r'` at `p'`, with the data `w` handed out. -/
structure Reader.Moves (last rest input : List UInt8) (r : Reader) (p : Pos) (w : List UInt8)
    (r' : Reader) (p' : Pos) : Prop where
  left : p.left = w ++ p'.left
  stream : r'.pstrblockRead ++ input = p'.bytes last ++ rest
  at_pos : r'.At p'
  chunks : ∀ c ∈ p'.chunks, c ∈ p.chunks
  bodyBytesIn : r'.bodyBytesIn = r.bodyBytesIn + w.length
  bytesIn : r'.bytesIn = r.bytesIn

/-- Reading chunk data from a nonempty block: what is not the line end of the chunk is handed
out. When bytes are left in the block, the next line has been reached. -/
theorem readChunkData_moves {last rest input : List UInt8} {p : Pos}
    (hat : r.At p) (hp : (∃ d cs, p = .data d cs) ∨ ∃ cs, p = .lf cs)
    (hstream : r.pstrblockRead ++ input = p.bytes last ++ rest) (hne : r.pstrblockRead ≠ []) :
    ∃ w r' p', readChunkData r = some (w, r') ∧ r.Moves last rest input p w r' p' ∧
      r'.writeToModulePending = w.length ∧ r'.eofReceived = r.eofReceived ∧
      r'.i206UseOriginalBody = r.i206UseOriginalBody ∧ p' ≠ .finished ∧
      r'.pstrblockRead.length < r.pstrblockRead.length ∧
      (r'.pstrblockRead ≠ [] → ∃ cs, p' = .line cs) := by
  have hpos : 0 < r.pstrblockRead.length := length_pos_iff.mpr hne
  obtain ⟨m, hm, hlt, hmpos⟩ : ∃ m, r.currentChunkLen = r.chunkBytesRead + m ∧
      r.currentChunkLen < 2 ^ 31 ∧ 0 < m := by
    rcases hp with ⟨d, cs, rfl⟩ | ⟨cs, rfl⟩
    all_goals exact ⟨_, hat.1, hat.2, by omega⟩
  have hrem : toInt32 ((r.currentChunkLen : Int) - r.chunkBytesRead) = m := by
    rw [hm, Nat.cast_add, add_sub_cancel_left]
    exact toInt32_of_lt (by omega)
  have hcur : (r.chunkBytesRead + min m r.pstrblockRead.length) % 2 ^ 32 =
      r.chunkBytesRead + min m r.pstrblockRead.length := Nat.mod_eq_of_lt (by omega)
  have htake : r.pstrblockRead.take (min (m - 2) r.pstrblockRead.length) =
      (p.bytes last ++ rest).take (min (m - 2) r.pstrblockRead.length) := by
    rw [← hstream, take_append_of_le_length (min_le_right _ _)]
  have hlen : (r.pstrblockRead.take (min (m - 2) r.pstrblockRead.length)).length =
      min (m - 2) r.pstrblockRead.length := by simp
  -- the position behind the bytes that are taken
  suffices hto : ∃ p' : Pos,
      p.left = (p.bytes last ++ rest).take (min (m - 2) r.pstrblockRead.length) ++ p'.left ∧
      (p.bytes last ++ rest).drop (min m r.pstrblockRead.length) = p'.bytes last ++ rest ∧
      (takeChunkData r (min m r.pstrblockRead.length) (min (m - 2) r.pstrblockRead.length)).At p' ∧
      p'.chunks = p.chunks ∧ p' ≠ .finished ∧ (m < r.pstrblockRead.length → ∃ cs, p' = .line cs) by
    obtain ⟨p', hleft, hdrop, hat', hchunks, hfin, hline⟩ := hto
    refine ⟨_, _, p', readChunkData_eq hrem, ⟨htake ▸ hleft, ?_, hat', fun c hc => hchunks ▸ hc,
      by rw [hlen]; rfl, rfl⟩, hlen.symm, rfl, rfl, hfin, ?_, fun hblk => hline ?_⟩
    · rw [← hdrop, ← hstream, drop_append_of_le_length (min_le_right _ _)]
      rfl
    · simp only [takeChunkData, length_drop]
      omega
    · have := length_pos_iff.mpr hblk
      simp only [takeChunkData, length_drop] at this
      omega
  rcases hp with ⟨d, cs, rfl⟩ | ⟨cs, rfl⟩
  · obtain rfl : m = d.length + 2 := by
      have := hat.1
      omega
    rw [Nat.add_sub_cancel]
    by_cases hin : r.pstrblockRead.length ≤ d.length
    · -- the block is part of the data
      rw [min_eq_right (by omega : _ ≤ d.length + 2)] at hcur ⊢
      rw [min_eq_right hin]
      refine ⟨.data (d.drop r.pstrblockRead.length) cs, ?_, ?_, ⟨?_, hlt⟩, rfl, by simp, by omega⟩
      · simp only [Pos.left, Pos.bytes, append_assoc, take_append_of_le_length hin]
        rw [← append_assoc, take_append_drop]
      · simp [Pos.bytes, drop_append_of_le_length hin]
      · simp only [takeChunkData, length_drop]
        omega
    · have hd : ((Pos.data d cs).bytes last ++ rest).take d.length = d := by simp [Pos.bytes]
      rw [min_eq_left (by omega : d.length ≤ _), hd]
      by_cases hcr : r.pstrblockRead.length = d.length + 1
      · -- only the `\n` is missing
        refine ⟨.lf cs, rfl, ?_, ⟨?_, hlt⟩, rfl, by simp, by omega⟩
        · simp [Pos.bytes, hcr, crlf]
        · simp only [takeChunkData]
          omega
      · rw [min_eq_left (by omega : d.length + 2 ≤ _)] at hcur ⊢
        exact ⟨.line cs, rfl, by simp [Pos.bytes, crlf], hm.trans hcur.symm, rfl,
          by simp, fun _ => ⟨cs, rfl⟩⟩
  · obtain rfl : m = 1 := by
      have := hat.1
      omega
    rw [min_eq_left (by omega : 1 ≤ _)] at hcur ⊢
    exact ⟨.line cs, by simp [Pos.left], by simp [Pos.bytes], hm.trans hcur.symm, rfl, by simp,
      fun _ => ⟨cs, rfl⟩⟩

/-! ## The last chunk -/

/-- What the last chunk leaves in the request. -/
def LastChunk.mark (t : LastChunk) (r : Reader) : Reader :=
  match t with
  | .plain => r
  | .ieof => { r with eofReceived := true }
  | .useOriginalBody n => { r with eofReceived := true, i206UseOriginalBody := n }

/-- The extension of the last chunk, from behind the `;`. -/
theorem lastChunkExt_ieof (r : Reader) (n : Nat) (b : List UInt8) :
    lastChunkExt r n (bytes " ieof" ++ 13 :: 10 :: 13 :: 10 :: b)
      = (none, { r with eofReceived := true, pstrblockRead := r.pstrblockRead.drop n }) := by
  have hnot : ¬ (18 ≤ (105 :: 101 :: 111 :: 102 :: 13 :: 10 :: 13 :: 10 :: b).length ∧
      (105 :: 101 :: 111 :: 102 :: 13 :: 10 :: 13 :: 10 :: b).take 18
        = bytes "use-original-body=") := by
    rintro ⟨-, h⟩
    have := congrArg head? h
    simp [bytes] at this
  have hskip : skipWhile isBlank (bytes " ieof" ++ 13 :: 10 :: 13 :: 10 :: b)
      = some (105 :: 101 :: 111 :: 102 :: 13 :: 10 :: 13 :: 10 :: b) := rfl
  simp only [lastChunkExt, hskip]
  rw [if_neg hnot]
  rfl

theorem lastChunkExt_useOriginalBody (r : Reader) (n k : Nat) (hk : k < 2 ^ 63) (b : List UInt8) :
    lastChunkExt r n (bytes " use-original-body=" ++ natText 10 k ++ 13 :: 10 :: 13 :: 10 :: b)
      = (none, { r with
          eofReceived := true
          i206UseOriginalBody := k
          pstrblockRead := r.pstrblockRead.drop n }) := by
  have hskip : skipWhile isBlank
      (bytes " use-original-body=" ++ natText 10 k ++ 13 :: 10 :: 13 :: 10 :: b)
      = some (bytes "use-original-body=" ++ (natText 10 k ++ 13 :: 10 :: 13 :: 10 :: b)) := by
    rw [append_assoc]; rfl
  have hval : strtol 10 (natText 10 k ++ 13 :: 10 :: 13 :: 10 :: b)
      = some ((k : Int), 13 :: 10 :: 13 :: 10 :: b) := by
    rw [strtol_digits (natText_ne_nil (by omega) (by omega) k)
      (natText_allDigits (by omega) (by omega) k) (by omega) (by decide) (by decide)
      (by rw [digitsValue_natText (by omega) (by omega)]; exact hk),
      digitsValue_natText (by omega) (by omega)]
  have hdrop : (bytes "use-original-body=" ++ (natText 10 k ++ 13 :: 10 :: 13 :: 10 :: b)).drop 18
      = natText 10 k ++ 13 :: 10 :: 13 :: 10 :: b := rfl
  simp only [lastChunkExt, hskip]
  rw [hdrop, hval]
  rfl

/-- The size line of the last chunk is in the block. -/
theorem readChunkDef_zero (h : r.pstrblockRead = t.line ++ 13 :: 10 :: b) :
    readChunkDef r = lastChunkDef { r with
      currentChunkLen := 0
      chunkBytesRead := 0
      requestBytesIn := r.requestBytesIn + (t.line.length + 2) }
      (t.line.length + 2) (t.ext ++ 13 :: 10 :: b) := by
  have hcr : findCrlf r.pstrblockRead = some t.line.length := by
    rw [h]; exact findCrlf_append t.cr_not_mem_line _
  -- the zero is followed by the line end or by the `;` of the extension
  obtain ⟨x, y, hxy, hx, hxx, hxb⟩ : ∃ x y, t.ext ++ 13 :: 10 :: b = x :: y ∧
      digitVal 16 x = none ∧ (x ≠ 120 ∧ x ≠ 88) ∧ isBlank x = false := by
    cases t with
    | plain => exact ⟨13, _, rfl, by decide, by decide, by decide⟩
    | ieof | useOriginalBody n => exact ⟨59, _, rfl, by decide, by decide, by decide⟩
  have hblk : r.pstrblockRead = 48 :: x :: y := by
    rw [h, LastChunk.line, cons_append, hxy]
  have hst : strtol 16 r.pstrblockRead = some (0, x :: y) := by
    have hdig := @strtol_digits 16 [48] (by simp) (by decide) (by omega) x hx hxx (by decide) y
    rw [hblk]
    exact hdig
  have hlen : ¬ (toInt32 0 = 0 ∧ (x :: y).length = r.pstrblockRead.length) := by
    rintro ⟨-, hlen⟩
    rw [hblk] at hlen
    simp at hlen
  have hskip : skipWhile isBlank (x :: y) = some (x :: y) := skipWhile_cons_of_not _ hxb
  have hu0 : toUInt32 (toInt32 0) = 0 := rfl
  simp only [readChunkDef, hcr, hst, if_neg hlen, hu0, hskip, if_pos, hxy]

/-- The second line end of the last chunk is still incomplete: nothing is taken. -/
theorem readChunkDef_last_inside
    (hb : b.length < 2) (h : r.pstrblockRead = t.line ++ 13 :: 10 :: b) :
    readChunkDef r = (some .needsMore, { r with
      currentChunkLen := 0
      chunkBytesRead := 0
      requestBytesIn := r.requestBytesIn + (t.line.length + 2) }) := by
  have hdrop : r.pstrblockRead.drop (t.line.length + 2) = b := by
    rw [h]
    simp
  rw [readChunkDef_zero h]
  simp only [lastChunkDef, hdrop]
  rcases b with _ | ⟨x, _ | ⟨y, b⟩⟩
  · rfl
  · rfl
  · simp at hb

/-- The last chunk is in the block: it is taken and leaves its mark. -/
theorem readChunkDef_last (ht : t.Fits) (h : r.pstrblockRead = t.enc ++ b) :
    readChunkDef r = (none, t.mark { r with
      pstrblockRead := b
      currentChunkLen := 0
      chunkBytesRead := 0
      requestBytesIn := r.requestBytesIn + (t.line.length + 2) + 2 }) := by
  have hblk : r.pstrblockRead = t.line ++ 13 :: 10 :: (13 :: 10 :: b) := by
    rw [h]; simp [LastChunk.enc, crlf]
  have hdrop2 : r.pstrblockRead.drop (t.line.length + 2) = 13 :: 10 :: b := by
    rw [hblk]
    simp
  have hdrop4 : r.pstrblockRead.drop (t.line.length + 2 + 2) = b := by
    rw [← drop_drop, hdrop2]
    rfl
  rw [readChunkDef_zero hblk]
  simp only [lastChunkDef, hdrop2]
  cases t with
  | plain =>
    show endChunkDef _ _ (13 :: 10 :: 13 :: 10 :: b) = _
    simp only [endChunkDef, hdrop4, LastChunk.mark]
  | ieof =>
    show lastChunkExt _ _ (bytes " ieof" ++ 13 :: 10 :: 13 :: 10 :: b) = _
    simp only [lastChunkExt_ieof, hdrop4, LastChunk.mark]
  | useOriginalBody k =>
    show lastChunkExt _ _
      (bytes " use-original-body=" ++ natText 10 k ++ 13 :: 10 :: 13 :: 10 :: b) = _
    simp only [lastChunkExt_useOriginalBody _ _ _ ht, hdrop4, LastChunk.mark]

/-! ## One call -/

/-- What a call of the parser does on a well-formed stream: `w` is the data it hands out,
`p'` the position it comes to. -/
structure CallSpec (t : LastChunk) (rest input : List UInt8) (r : Reader) (p : Pos)
    (ret : ChunkRet) (w : List UInt8) (r' : Reader) (p' : Pos) : Prop where
  moves : r.Moves t.enc rest input p w r' p'
  no_error : ret ≠ .error ∧ ret ≠ .wild
  eof_iff : ret = .eof ↔ p' = .finished
  shorter : r'.pstrblockRead.length ≤ r.pstrblockRead.length
  /-- more bytes are asked for only when there are more, and there is room for them -/
  needsMore : ret = .needsMore → input ≠ [] ∧ r'.pstrblockRead.length < bufSize
  ok : ret = .ok → r'.pstrblockRead.length < r.pstrblockRead.length ∧ p' ≠ .finished
  /-- the last chunk leaves its mark -/
  mark : p' = .finished → r'.eofReceived = (t.mark r).eofReceived ∧
    r'.i206UseOriginalBody = (t.mark r).i206UseOriginalBody
  no_mark : p' ≠ .finished → r'.eofReceived = r.eofReceived ∧
    r'.i206UseOriginalBody = r.i206UseOriginalBody

section Call

variable {t : LastChunk} {rest input : List UInt8}

theorem LastChunk.line_length_le (ht : t.Fits) : t.line.length ≤ 40 := by
  cases t with
  | plain | ieof => decide
  | useOriginalBody n =>
    have hn : (natText 10 n).length ≤ 19 :=
      natText_length_le (by omega) (by omega) (lt_trans ht (by norm_num))
    simp [LastChunk.line, LastChunk.ext, bytes]
    omega

variable {r r' : Reader} {p : Pos}

/-- More bytes are asked for, and none has been taken. -/
theorem callSpec_stay (hp : p ≠ .finished)
    (hstream : r.pstrblockRead ++ input = p.bytes t.enc ++ rest) (hat : r'.At p)
    (hblk : r'.pstrblockRead = r.pstrblockRead) (hbody : r'.bodyBytesIn = r.bodyBytesIn)
    (hbytes : r'.bytesIn = r.bytesIn) (heof : r'.eofReceived = r.eofReceived)
    (hi : r'.i206UseOriginalBody = r.i206UseOriginalBody) (hinput : input ≠ [])
    (hlt : r.pstrblockRead.length < bufSize) :
    CallSpec t rest input r p .needsMore [] r' p where
  moves := ⟨rfl, by rw [hblk]; exact hstream, hat, fun c hc => hc, by simpa using hbody, hbytes⟩
  no_error := by simp
  eof_iff := by simp [hp]
  shorter := by rw [hblk]
  needsMore := fun _ => ⟨hinput, by rw [hblk]; exact hlt⟩
  ok := by simp
  mark := fun h => absurd h hp
  no_mark := fun _ => ⟨heof, hi⟩

/-- A first move, without a mark, in front of a call. -/
theorem CallSpec.of_moves {r₁ : Reader} {p₁ p' : Pos} {ret : ChunkRet}
    {w d : List UInt8} (hm : r.Moves t.enc rest input p w r₁ p₁)
    (heof : r₁.eofReceived = r.eofReceived)
    (hi : r₁.i206UseOriginalBody = r.i206UseOriginalBody)
    (hlen : r₁.pstrblockRead.length ≤ r.pstrblockRead.length)
    (h : CallSpec t rest input r₁ p₁ ret d r' p') :
    CallSpec t rest input r p ret (w ++ d) r' p' where
  moves :=
    { left := by rw [hm.left, h.moves.left, append_assoc]
      stream := h.moves.stream
      at_pos := h.moves.at_pos
      chunks := fun c hc => hm.chunks c (h.moves.chunks c hc)
      bodyBytesIn := by
        rw [h.moves.bodyBytesIn, hm.bodyBytesIn, length_append, Nat.add_assoc]
      bytesIn := h.moves.bytesIn.trans hm.bytesIn }
  no_error := h.no_error
  eof_iff := h.eof_iff
  shorter := h.shorter.trans hlen
  needsMore := h.needsMore
  ok := fun hok => ⟨lt_of_lt_of_le (h.ok hok).1 hlen, (h.ok hok).2⟩
  mark := fun hfin => by
    obtain ⟨h1, h2⟩ := h.mark hfin
    cases t with
    | plain => exact ⟨h1.trans heof, h2.trans hi⟩
    | ieof => exact ⟨h1, h2.trans hi⟩
    | useOriginalBody n => exact ⟨h1, h2⟩
  no_mark := fun hfin => by
    obtain ⟨h1, h2⟩ := h.no_mark hfin
    exact ⟨h1.trans heof, h2.trans hi⟩

/-- A call that has run out of bytes after a move. -/
theorem callSpec_emptied {p' : Pos} {w : List UInt8} (hp : p' ≠ .finished)
    (hm : r.Moves t.enc rest input p w r' p') (heof : r'.eofReceived = r.eofReceived)
    (hi : r'.i206UseOriginalBody = r.i206UseOriginalBody) (hblk : r'.pstrblockRead = []) :
    CallSpec t rest input r p .needsMore w r' p' where
  moves := hm
  no_error := by simp
  eof_iff := by simp [hp]
  shorter := by rw [hblk]; exact Nat.zero_le _
  needsMore := by
    refine fun _ => ⟨fun h => ?_, by rw [hblk]; decide⟩
    have hstream := hm.stream
    rw [hblk, h] at hstream
    exact p'.bytes_ne_nil t.enc_ne_nil hp (append_eq_nil_iff.mp hstream.symm).1
  ok := by simp
  mark := fun h => absurd h hp
  no_mark := fun _ => ⟨heof, hi⟩

theorem Reader.Moves.refl (hat : r.At p)
    (hstream : r.pstrblockRead ++ input = p.bytes t.enc ++ rest) :
    r.Moves t.enc rest input p [] r p :=
  ⟨rfl, hstream, hat, fun _ hc => hc, rfl, rfl⟩

/-- A round inside a chunk, with no data waiting for the service: either the call returns, or
the loop goes on before a size line. -/
theorem chunkRound_inside {w₀ : Option (List UInt8)} (hat : r.At p)
    (hp : (∃ d cs, p = .data d cs) ∨ ∃ cs, p = .lf cs)
    (hstream : r.pstrblockRead ++ input = p.bytes t.enc ++ rest)
    (hpend : r.writeToModulePending = 0) (hw : w₀.getD [] = []) :
    (∃ w d r' p', chunkRound w₀ r = .inl (.needsMore, w, r') ∧ w.getD [] = d ∧
        r'.writeToModulePending = d.length ∧ CallSpec t rest input r p .needsMore d r' p') ∨
    (∃ w r' cs, chunkRound w₀ r = .inr (w, r') ∧ r'.writeToModulePending = w.length ∧
        r.Moves t.enc rest input p w r' (.line cs) ∧ r'.eofReceived = r.eofReceived ∧
        r'.i206UseOriginalBody = r.i206UseOriginalBody ∧
        r'.pstrblockRead.length < r.pstrblockRead.length) := by
  have hcur : r.currentChunkLen ≠ 0 := by
    rcases hp with ⟨d, cs, rfl⟩ | ⟨cs, rfl⟩
    all_goals have := hat.1; omega
  have hfin : p ≠ .finished := by
    rcases hp with ⟨d, cs, rfl⟩ | ⟨cs, rfl⟩ <;> simp
  unfold chunkRound
  rw [if_neg hcur, if_neg (by omega)]
  by_cases hblk : r.pstrblockRead = []
  · rw [if_pos hblk]
    exact Or.inl ⟨w₀, [], r, p, rfl, hw, hpend,
      callSpec_emptied hfin (.refl hat hstream) rfl rfl hblk⟩
  rw [if_neg hblk]
  obtain ⟨w, r', p', hread, hm, hlen, heof, hi, hp', hlt, hline⟩ :=
    readChunkData_moves hat hp hstream hblk
  simp only [hread]
  by_cases hblk' : r'.pstrblockRead = []
  · rw [if_pos hblk']
    exact Or.inl ⟨some w, w, r', p', rfl, rfl, hlen, callSpec_emptied hp' hm heof hi hblk'⟩
  · rw [if_neg hblk']
    obtain ⟨cs, rfl⟩ := hline hblk'
    exact Or.inr ⟨w, r', cs, rfl, hlen, hm, heof, hi, hlt⟩

/-- Reading a size line on a well-formed stream. Either the line is not complete and the
parser asks for more, or it stands at the data of the chunk, or the body is over. -/
theorem readChunkDef_cases (ht : t.Fits) {cs : List Chunk}
    (hat : r.At (.line cs)) (hcs : ∀ c ∈ cs, ChunkFits c)
    (hstream : r.pstrblockRead ++ input = (Pos.line cs).bytes t.enc ++ rest) :
    (∃ r', readChunkDef r = (some .needsMore, r') ∧
        r'.writeToModulePending = r.writeToModulePending ∧
        CallSpec t rest input r (.line cs) .needsMore [] r' (.line cs)) ∨
    (∃ c cs' r', cs = c :: cs' ∧ readChunkDef r = (none, r') ∧
        r'.writeToModulePending = r.writeToModulePending ∧
        r.Moves t.enc rest input (.line cs) [] r' (.data c.data cs') ∧
        r'.eofReceived = r.eofReceived ∧ r'.i206UseOriginalBody = r.i206UseOriginalBody ∧
        r'.pstrblockRead.length < r.pstrblockRead.length) ∨
    (∃ r', readChunkDef r = (none, r') ∧ r'.currentChunkLen = 0 ∧
        r'.writeToModulePending = r.writeToModulePending ∧
        CallSpec t rest input r (.line cs) .eof [] r' .finished) := by
  cases cs with
  | cons c cs =>
    have hc := hcs c (by simp)
    have hstream' : r.pstrblockRead ++ input
        = (c.size ++ crlf) ++ (c.data ++ crlf ++ enc cs ++ t.enc ++ rest) := by
      rw [hstream]; simp [Pos.bytes, enc, Chunk.enc]
    rcases split_stream hstream' with ⟨u, hu, hA, hi⟩ | ⟨b, hb, hB⟩
    · obtain ⟨hlt, hread⟩ := readChunkDef_inside c.cr_not_mem_size hc.2 hu hA
      exact Or.inl ⟨r, hread, rfl,
        callSpec_stay (by simp) hstream hat rfl rfl rfl rfl rfl (by simp [hi, hu]) hlt⟩
    refine Or.inr (Or.inl ⟨c, cs, _, rfl, readChunkDef_chunk hc hb, rfl,
      ⟨?_, ?_, ?_, ?_, rfl, rfl⟩, rfl, rfl, ?_⟩)
    · rfl
    · exact hB.symm
    · have := hc.1
      exact ⟨by simp, by simp only; omega⟩
    · intro c' hc'
      exact mem_cons_of_mem _ hc'
    · rw [hb]; simp; omega
  | nil =>
    have hstream' : r.pstrblockRead ++ input = (t.line ++ crlf) ++ (crlf ++ rest) := by
      rw [hstream]; simp [Pos.bytes, LastChunk.enc]
    have hlast := LastChunk.line_length_le ht
    have hbuf : bufSize = 4096 := rfl
    rcases split_stream hstream' with ⟨u, hu, hA, hi⟩ | ⟨b, hb, hB⟩
    · obtain ⟨hlt, hread⟩ := readChunkDef_inside t.cr_not_mem_line (by omega) hu hA
      exact Or.inl ⟨r, hread, rfl,
        callSpec_stay (by simp) hstream hat rfl rfl rfl rfl rfl (by simp [hi, hu]) hlt⟩
    have hblk : r.pstrblockRead = t.line ++ 13 :: 10 :: b := by
      rw [hb]; simp [crlf]
    rcases split_stream hB.symm with ⟨u, hu, hA, hi⟩ | ⟨b', hb', hB'⟩
    · -- the second line end is not complete
      have hblen : b.length < 2 := by
        have hlen := congrArg length hA
        have hupos : 0 < u.length := length_pos_iff.mpr hu
        simp only [length_append, crlf_length] at hlen
        omega
      refine Or.inl ⟨_, readChunkDef_last_inside hblen hblk, rfl, ?_⟩
      refine callSpec_stay (by simp) hstream rfl rfl rfl rfl rfl rfl (by simp [hi, hu]) ?_
      rw [hblk]
      simp
      omega
    · have henc : r.pstrblockRead = t.enc ++ b' := by
        rw [hblk, hb']; simp [LastChunk.enc, crlf]
      refine Or.inr (Or.inr ⟨_, readChunkDef_last ht henc, ?_, ?_, ?_⟩)
      · cases t <;> rfl
      · cases t <;> rfl
      · exact
          { moves := ⟨rfl, by cases t <;> simpa [Pos.bytes, LastChunk.mark] using hB'.symm,
              by cases t <;> exact ⟨rfl, rfl⟩, by simp [Pos.chunks], by cases t <;> rfl,
              by cases t <;> rfl⟩
            no_error := by simp
            eof_iff := by simp
            shorter := by rw [henc]; cases t <;> simp [LastChunk.mark]
            needsMore := by simp
            ok := by simp
            mark := fun _ => by cases t <;> exact ⟨rfl, rfl⟩
            no_mark := fun h => absurd rfl h }

/-- The result of the loop, which has begun with the data `w₀` handed out. -/
def LoopSpec (t : LastChunk) (rest input : List UInt8) (w₀ : Option (List UInt8)) (r : Reader)
    (p : Pos) (res : ChunkRet × Option (List UInt8) × Reader) : Prop :=
  ∃ d p', res.2.1.getD [] = w₀.getD [] ++ d ∧
    res.2.2.writeToModulePending = (res.2.1.getD []).length ∧
    CallSpec t rest input r p res.1 d res.2.2 p'

/-- The specification of the loop. On entry `w₀` are the data already handed out; there are
such data only before a size line. -/
theorem parseChunkLoop_spec (ht : t.Fits) :
    ∀ (fuel : Nat) (w₀ : Option (List UInt8)) (r : Reader) (p : Pos),
      r.pstrblockRead.length < fuel → r.At p → p ≠ .finished →
      (∀ c ∈ p.chunks, ChunkFits c) →
      r.pstrblockRead ++ input = p.bytes t.enc ++ rest →
      (r.writeToModulePending ≠ 0 → ∃ cs, p = .line cs) →
      r.writeToModulePending = (w₀.getD []).length →
      LoopSpec t rest input w₀ r p (parseChunkLoop fuel w₀ r) := by
  intro fuel
  induction fuel with
  | zero => intro w₀ r p hlen; omega
  | succ fuel ih =>
    intro w₀ r p hlen hat hfin hcs hstream hline hpend
    -- a round inside a chunk, from a request `r₁` that stands at `p₁`
    have inside : ∀ (r₁ : Reader) (p₁ : Pos), r₁.At p₁ →
        ((∃ d cs, p₁ = .data d cs) ∨ ∃ cs, p₁ = .lf cs) → (∀ c ∈ p₁.chunks, ChunkFits c) →
        r₁.pstrblockRead ++ input = p₁.bytes t.enc ++ rest → w₀.getD [] = [] →
        r₁.writeToModulePending = 0 → r₁.pstrblockRead.length < fuel + 1 →
        LoopSpec t rest input w₀ r₁ p₁ (afterRound fuel (chunkRound w₀ r₁)) := by
      intro r₁ p₁ hat₁ hp₁ hcs₁ hstream₁ hw₀ hpend₁ hlen₁
      rcases chunkRound_inside hat₁ hp₁ hstream₁ hpend₁ hw₀ with
        ⟨w, d, r', p', hround, rfl, hpend', hspec⟩ |
        ⟨w, r', cs, hround, hpend', hm, heof, hi, hlt⟩
      · rw [hround]
        exact ⟨_, p', by rw [hw₀]; rfl, hpend', hspec⟩
      · rw [hround]
        obtain ⟨d, p'', hw', hpend'', hspec⟩ := ih (some w) r' (.line cs)
          (by omega) hm.at_pos (by simp) (fun c hc => hcs₁ c (hm.chunks c hc)) hm.stream
          (fun _ => ⟨cs, rfl⟩) hpend'
        exact ⟨w ++ d, p'', by rw [hw₀]; exact hw', hpend'',
          hspec.of_moves hm heof hi (le_of_lt hlt)⟩
    -- a call that begins inside a chunk
    have within : ((∃ d cs, p = .data d cs) ∨ ∃ cs, p = .lf cs) →
        LoopSpec t rest input w₀ r p (parseChunkLoop (fuel + 1) w₀ r) := by
      intro hp
      have hw : r.writeToModulePending = 0 := by
        by_contra hcon
        obtain ⟨cs, rfl⟩ := hline hcon
        simp at hp
      have hw₀ : w₀.getD [] = [] := length_eq_zero_iff.mp (hpend ▸ hw)
      have hdef : r.currentChunkLen ≠ r.chunkBytesRead := by
        rcases hp with ⟨d, cs, rfl⟩ | ⟨cs, rfl⟩ <;> have := hat.1 <;> omega
      unfold parseChunkLoop
      rw [if_neg hdef]
      exact inside r _ hat hp hcs hstream hw₀ hw hlen
    cases p with
    | line cs =>
      have hdef : r.currentChunkLen = r.chunkBytesRead := hat
      unfold parseChunkLoop
      rw [if_pos hdef]
      rcases readChunkDef_cases ht hat hcs hstream with
        ⟨r₁, hread, hpend₁, hspec⟩ | ⟨c, cs', r₁, rfl, hread, hpend₁, hm, heof, hi, hlt⟩ |
        ⟨r₁, hread, hcur, hpend₁, hspec⟩
      · rw [hread]
        exact ⟨[], _, by simp, hpend₁.trans hpend, hspec⟩
      · rw [hread]
        by_cases hw : r.writeToModulePending = 0
        · have hw₀ : w₀.getD [] = [] := length_eq_zero_iff.mp (hpend ▸ hw)
          obtain ⟨d, p', hwd, hpend', hspec⟩ := inside r₁ _ hm.at_pos
            (Or.inl ⟨_, _, rfl⟩) (fun c hc => hcs c (hm.chunks c hc)) hm.stream hw₀
            (hpend₁.trans hw) (by omega)
          exact ⟨d, p', hwd, hpend', hspec.of_moves hm heof hi (le_of_lt hlt)⟩
        -- data of the chunk before are waiting: the call returns them
        have hcur : r₁.currentChunkLen ≠ 0 := by have := hm.at_pos.1; omega
        have hround : chunkRound w₀ r₁ = .inl (.ok, w₀, r₁) := by
          unfold chunkRound
          rw [if_neg hcur, if_pos (by rw [hpend₁]; exact hw)]
        simp only [hround]
        exact ⟨[], _, by simp, hpend₁.trans hpend,
          { moves := hm
            no_error := by simp
            eof_iff := by simp
            shorter := le_of_lt hlt
            needsMore := by simp
            ok := fun _ => ⟨hlt, by simp⟩
            mark := by simp
            no_mark := fun _ => ⟨heof, hi⟩ }⟩
      · have hround : chunkRound w₀ r₁ = .inl (.eof, w₀, r₁) := by
          unfold chunkRound
          rw [if_pos hcur]
        rw [hread]
        simp only [hround]
        exact ⟨[], _, by simp, hpend₁.trans hpend, hspec⟩
    | data e cs => exact within (.inl ⟨e, cs, rfl⟩)
    | lf cs => exact within (.inr ⟨cs, rfl⟩)
    | finished => exact absurd rfl hfin

/-- **One call of `parse_chunk_data` on a well-formed stream.** Whatever part of the stream is
in the read buffer, the call does not fail, hands out the next data and moves on. -/
theorem parseChunkData_spec (ht : t.Fits) (hat : r.At p)
    (hfin : p ≠ .finished) (hcs : ∀ c ∈ p.chunks, ChunkFits c)
    (hstream : r.pstrblockRead ++ input = p.bytes t.enc ++ rest)
    (hpend : r.writeToModulePending = 0) :
    ∃ ret w r' p', parseChunkData r = (ret, w, r') ∧ r'.writeToModulePending = (w.getD []).length ∧
      CallSpec t rest input r p ret (w.getD []) r' p' := by
  obtain ⟨d, p', hw, hpend', hspec⟩ := parseChunkLoop_spec ht
    (r.pstrblockRead.length + 1) none r p (by omega) hat hfin hcs hstream
    (fun h => absurd hpend h) hpend
  rw [parseChunkData, if_neg (by omega)]
  generalize parseChunkLoop _ none r = res at hw hpend' hspec ⊢
  exact ⟨res.1, res.2.1, res.2.2, p', rfl, hpend', hw ▸ hspec⟩

end Call

end CIcap
