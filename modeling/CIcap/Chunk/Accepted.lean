import CIcap.Chunk.Rounds

/-! # What the chunk decoder accepts

The decoder is given arbitrary bytes, in any cutting. When it reaches `CI_EOF` without an error, the
bytes it has consumed are a list of what it took for chunks (`TakenChunk`) and of what it took for the
last one (`TakenLast`). The size is what `strtol` makes of the line and of the bytes behind it, as an
`int`; the bytes behind the data are skipped, whatever they are. `accepted_correct_iff` says when these
bytes are a correct chunked body.
-/

namespace CIcap

open CText Chunked Machine List

/-! ## What is taken -/

/-- What the decoder takes for a chunk: a size line, the data it delivers, and what it takes for the line
end behind them. -/
structure TakenChunk where
  line : List UInt8
  data : List UInt8
  tail : List UInt8

/-- What it takes for the last chunk. -/
structure TakenLast where
  line : List UInt8
  tail : List UInt8

namespace TakenChunk

def bytes (k : TakenChunk) : List UInt8 := k.line ++ crlf ++ k.data ++ k.tail

/-- The size that was read, with `after` behind the chunk: `strtol` may read on behind the line. -/
def SizedIn (after : List UInt8) (k : TakenChunk) : Prop :=
  ∃ v stop, strtol 16 (k.bytes ++ after) = some (v, stop) ∧ storedSize v ≠ 0 ∧
    k.data.length + k.tail.length = (storedSize v + 2) % 2 ^ 32 ∧
    k.data.length = k.data.length + k.tail.length - 2 ∧ k.data.length + k.tail.length < 2 ^ 31

/-- The size line is a hexadecimal number, its value is the number of the data delivered, and the data
are followed by a line end. -/
structure Correct (k : TakenChunk) : Prop where
  ne : k.line ≠ []
  digits : AllDigits 16 k.line
  value : digitsValue 16 k.line = k.data.length
  tail : k.tail = crlf

/-- The size line is a hexadecimal number that the decoder can represent, and the data are followed by a
line end. -/
structure Plain (k : TakenChunk) : Prop where
  ne : k.line ≠ []
  digits : AllDigits 16 k.line
  value : digitsValue 16 k.line ≤ 2 ^ 31 - 3
  tail : k.tail = crlf

end TakenChunk

def takenBytes (ks : List TakenChunk) : List UInt8 := ks.flatMap TakenChunk.bytes

def takenData (ks : List TakenChunk) : List UInt8 := ks.flatMap TakenChunk.data

/-- The sizes of all chunks were read, with `after` behind the last of them. -/
def Sized (after : List UInt8) : List TakenChunk → Prop
  | [] => True
  | k :: ks => k.SizedIn (takenBytes ks ++ after) ∧ Sized after ks

variable {after : List UInt8}

theorem sized_append {ks : List TakenChunk} {k : TakenChunk}
    (h : Sized (k.bytes ++ after) ks) (hk : k.SizedIn after) : Sized after (ks ++ [k]) := by
  induction ks with
  | nil => exact ⟨hk, trivial⟩
  | cons k' ks ih =>
    refine ⟨?_, ih h.2⟩
    have hbytes : takenBytes (ks ++ [k]) ++ after = takenBytes ks ++ (k.bytes ++ after) := by
      simp [takenBytes]
    show TakenChunk.SizedIn (takenBytes (ks ++ [k]) ++ after) k'
    rw [hbytes]
    exact h.1

namespace TakenLast

def bytes (k : TakenLast) : List UInt8 := k.line ++ crlf ++ k.tail

/-- The size that was read is zero, and two bytes behind the line were taken; or it is the one number
that becomes zero when the line end of the chunk is counted in. -/
def SizedIn (after : List UInt8) (k : TakenLast) : Prop :=
  ∃ v stop, strtol 16 (k.bytes ++ after) = some (v, stop) ∧
    (storedSize v = 0 ∧ k.tail.length = 2 ∨ storedSize v = 2 ^ 32 - 2 ∧ k.tail = [])

/-- A number with an extension, or with none. -/
structure Numbered (k : TakenLast) (digits ext : List UInt8) : Prop where
  line : k.line = digits ++ ext
  ne : digits ≠ []
  digits : AllDigits 16 digits
  ext : ∀ b ∈ ext.head?, b = 59 ∨ isBlank b = true

/-- The size is zero, and a line end follows. -/
def Correct (k : TakenLast) : Prop :=
  ∃ digits ext, k.Numbered digits ext ∧ digitsValue 16 digits = 0 ∧ k.tail = crlf

/-- The size is a number that the decoder can represent, and a line end follows. -/
def Plain (k : TakenLast) : Prop :=
  ∃ digits ext, k.Numbered digits ext ∧ digitsValue 16 digits ≤ 2 ^ 31 - 3 ∧ k.tail = crlf

end TakenLast

/-! ## Correct sizes -/

theorem storedSize_of_lt {n : Nat} (h : n < 2 ^ 31) : storedSize n = n := by
  unfold storedSize
  rw [toInt32_of_lt h, toUInt32_of_lt (by omega)]

theorem TakenChunk.correct_iff {k : TakenChunk} (h : k.SizedIn after) : k.Correct ↔ k.Plain := by
  obtain ⟨v, stop, hnum, hne, hlen, hdata, hlt⟩ := h
  constructor
  · intro hk
    exact ⟨hk.ne, hk.digits, by rw [hk.value]; omega, hk.tail⟩
  · intro hk
    refine ⟨hk.ne, hk.digits, ?_, hk.tail⟩
    -- the decoder has read the number of the line
    have hread := strtol_digits hk.ne hk.digits (by omega) (b := 13) (by decide) (by decide)
      (by have := hk.value; omega) (10 :: (k.data ++ k.tail ++ after))
    have hbytes : k.bytes ++ after = k.line ++ 13 :: 10 :: (k.data ++ k.tail ++ after) := by
      simp [TakenChunk.bytes, crlf]
    rw [hbytes, hread] at hnum
    cases hnum
    have hval := hk.value
    rw [storedSize_of_lt (by omega)] at hlen hne
    omega

theorem TakenLast.correct_iff {k : TakenLast} (h : k.SizedIn after) : k.Correct ↔ k.Plain := by
  obtain ⟨v, stop, hnum, hsize⟩ := h
  constructor
  · rintro ⟨digits, ext, hk, hval, htail⟩
    exact ⟨digits, ext, hk, by omega, htail⟩
  · rintro ⟨digits, ext, hk, hval, htail⟩
    refine ⟨digits, ext, hk, ?_, htail⟩
    -- what follows the digits is no digit
    obtain ⟨b, more, hmore, hb, hbx⟩ : ∃ b more, ext ++ crlf ++ k.tail ++ after = b :: more ∧
        digitVal 16 b = none ∧ (b ≠ 120 ∧ b ≠ 88) := by
      cases hext : ext with
      | nil => exact ⟨13, _, rfl, by decide, by decide⟩
      | cons b more =>
        refine ⟨b, _, rfl, ?_⟩
        rcases hk.ext b (by rw [hext]; rfl) with rfl | hblank
        · exact ⟨by decide, by decide⟩
        · have h' : b = 32 ∨ b = 9 := by simpa [isBlank] using hblank
          rcases h' with rfl | rfl <;> exact ⟨by decide, by decide⟩
    have hread := strtol_digits hk.ne hk.digits (by omega) hb hbx (by omega) more
    have hbytes : k.bytes ++ after = digits ++ b :: more := by
      rw [← hmore, TakenLast.bytes, hk.line]
      simp
    rw [hbytes, hread] at hnum
    cases hnum
    rw [storedSize_of_lt (by omega)] at hsize
    omega

/-! ## Along the bytes -/

/-- Where the decoder stands: before a size line, or inside a chunk of which it has taken the line, some
data and some of the bytes behind them. -/
inductive Spot where
  | line
  | inside (line data tail : List UInt8)

namespace Spot

def bytes : Spot → List UInt8
  | line => []
  | inside l d u => l ++ crlf ++ d ++ u

def data : Spot → List UInt8
  | line => []
  | inside _ d _ => d

/-- The counters of the request and the size that was read agree with the spot; `rest` are the bytes that
are not taken. -/
def At (r : Reader) (rest : List UInt8) : Spot → Prop
  | line => r.currentChunkLen = r.chunkBytesRead
  | inside l d u =>
    (∃ v stop, strtol 16 (l ++ crlf ++ d ++ u ++ rest) = some (v, stop) ∧ storedSize v ≠ 0 ∧
      r.currentChunkLen = (storedSize v + 2) % 2 ^ 32) ∧
    r.chunkBytesRead = d.length + u.length ∧ d.length + u.length < r.currentChunkLen ∧
    d.length ≤ r.currentChunkLen - 2 ∧ (u ≠ [] → d.length = r.currentChunkLen - 2) ∧
    (d.length + u.length ≠ 0 → r.currentChunkLen < 2 ^ 31)

end Spot

section Call

variable (sent input : List UInt8)

/-- The request has come along `sent` to a spot; `done` are the chunks taken, `input` is still to be
read. -/
structure Along (r : Reader) (done : List TakenChunk) (spot : Spot) : Prop where
  bytes : sent = takenBytes done ++ (spot.bytes ++ (r.pstrblockRead ++ input))
  sized : Sized (spot.bytes ++ (r.pstrblockRead ++ input)) done
  at_spot : spot.At r (r.pstrblockRead ++ input)

/-- The request has come to the end of the body. -/
structure AtEnd (r : Reader) (done : List TakenChunk) (last : TakenLast) : Prop where
  bytes : sent = takenBytes done ++ (last.bytes ++ (r.pstrblockRead ++ input))
  sized : Sized (last.bytes ++ (r.pstrblockRead ++ input)) done
  last : last.SizedIn (r.pstrblockRead ++ input)

variable {sent input} {r r' : Reader} {done : List TakenChunk}

/-- The counters inside a chunk, in which `m` bytes are still to come. -/
structure ChunkCounts (r : Reader) (d u : List UInt8) (m : Nat) : Prop where
  current : r.currentChunkLen = d.length + u.length + m
  read : r.chunkBytesRead = d.length + u.length
  small : r.currentChunkLen < 2 ^ 31
  /-- data are to come only as long as nothing behind them has been taken -/
  data : d.length + (m - 2) = r.currentChunkLen - 2
  order : u ≠ [] → m - 2 = 0

variable {m : Nat} {spot : Spot}

theorem toInt32_eq_nat {z : Int} (h0 : 0 ≤ z) (hlt : z < 2 ^ 32) (h : toInt32 z = m) :
    z = m ∧ m < 2 ^ 31 := by
  unfold toInt32 at h
  rw [Int.bmod_def] at h
  split_ifs at h <;> omega

theorem Spot.At.counts {rest l d u w : List UInt8} (h : (Spot.inside l d u).At r rest)
    (hround : DataRound r w r' m) : ChunkCounts r d u m := by
  obtain ⟨⟨v, stop, -, -, hcur⟩, hread, hlt, hd, hu, hlim⟩ := h
  obtain ⟨hm, hsmall⟩ := toInt32_eq_nat (by omega) (by omega) hround.remains
  have hupos : u ≠ [] → 0 < u.length := length_pos_iff.mpr
  have hunil : ¬ u ≠ [] → u.length = 0 := fun hnil => by rw [not_not.mp hnil]; rfl
  refine ⟨by omega, hread, ?_, ?_, ?_⟩
  · by_cases h0 : d.length + u.length = 0
    · omega
    · exact hlim h0
  · by_cases hne : u ≠ []
    · have := hu hne
      have := hupos hne
      omega
    · have := hunil hne
      omega
  · intro hne
    have := hu hne
    omega

/-- Reading chunk data goes on in the chunk, or to the next line. -/
theorem Along.data {l d u w : List UInt8} (h : Along sent input r done (.inside l d u))
    (hround : DataRound r w r' m) :
    (∃ u', Along sent input r' done (.inside l (d ++ w) u') ∧ r'.pstrblockRead = []) ∨
      ∃ u', Along sent input r' (done ++ [⟨l, d ++ w, u'⟩]) .line := by
  have hc := h.at_spot.counts hround
  obtain ⟨⟨v, stop, hnum, hne, hcur⟩, -, -, -, -, -⟩ := h.at_spot
  set len := r.pstrblockRead.length
  -- the bytes taken are data and bytes behind them
  set x := (r.pstrblockRead.drop (min (m - 2) len)).take (min m len - min (m - 2) len)
  have hwlen : w.length = min (m - 2) len := by
    rw [hround.data, length_take]
    omega
  have hxlen : x.length = min m len - min (m - 2) len := by
    rw [length_take, length_drop]
    omega
  have hsplit : r.pstrblockRead = w ++ x ++ r'.pstrblockRead := by
    have htake : w ++ x = r.pstrblockRead.take (min m len) := by
      rw [hround.data, ← take_add]
      congr 1
      omega
    rw [htake, hround.taken]
    exact (take_append_drop _ _).symm
  have hcomm : u ++ w = w ++ u := by
    by_cases hu : u = []
    · rw [hu, append_nil, nil_append]
    · have hw : w = [] := length_eq_zero_iff.mp (by have := hc.order hu; omega)
      rw [hw, append_nil, nil_append]
  have hmove : d ++ u ++ (r.pstrblockRead ++ input) =
      (d ++ w) ++ (u ++ x) ++ (r'.pstrblockRead ++ input) := by
    rw [hsplit]
    calc d ++ u ++ (w ++ x ++ r'.pstrblockRead ++ input)
        = d ++ (u ++ w) ++ (x ++ r'.pstrblockRead ++ input) := by simp only [append_assoc]
      _ = d ++ w ++ (u ++ x) ++ (r'.pstrblockRead ++ input) := by
          rw [hcomm]
          simp only [append_assoc]
  have hrest : (Spot.inside l d u).bytes ++ (r.pstrblockRead ++ input) =
      (Spot.inside l (d ++ w) (u ++ x)).bytes ++ (r'.pstrblockRead ++ input) := by
    have := congrArg (fun y => l ++ crlf ++ y) hmove
    simpa only [Spot.bytes, append_assoc] using this
  have hcur' : r'.currentChunkLen = r.currentChunkLen := by rw [hround.taken]; rfl
  have hread' : r'.chunkBytesRead = r.chunkBytesRead + min m len := by
    rw [hround.taken]
    have := hc.current
    have := hc.read
    exact Nat.mod_eq_of_lt (by omega)
  have hblk : r'.pstrblockRead.length = len - min m len := by
    rw [hround.taken]
    exact length_drop
  have hbytes := h.bytes
  have hsized := h.sized
  rw [hrest] at hbytes hsized
  have hnum' : strtol 16 (l ++ crlf ++ (d ++ w) ++ (u ++ x) ++ (r'.pstrblockRead ++ input)) =
      some (v, stop) := by
    rw [← hnum]
    exact congrArg _ hrest.symm
  have hcurrent := hc.current
  have hread := hc.read
  have hdata := hc.data
  have hsmall := hc.small
  by_cases hall : m ≤ len
  · -- the chunk is complete
    refine .inr ⟨u ++ x, ?_, ?_, ?_⟩
    · rw [hbytes]
      simp [takenBytes, TakenChunk.bytes, Spot.bytes]
    · refine sized_append hsized ⟨v, stop, hnum', hne, ?_, ?_, ?_⟩ <;>
        simp only [length_append] <;> omega
    · show r'.currentChunkLen = r'.chunkBytesRead
      omega
  refine .inl ⟨u ++ x, ⟨hbytes, hsized, ⟨v, stop, hnum', hne, hcur'.trans hcur⟩, ?_, ?_, ?_, ?_, ?_⟩, ?_⟩
  · rw [length_append, length_append]
    omega
  · rw [length_append, length_append]
    omega
  · rw [length_append]
    omega
  · intro hu'
    rw [length_append]
    by_cases hu : u = []
    · have hxpos : 0 < x.length := length_pos_iff.mpr fun hx0 => hu' (by rw [hu, hx0]; rfl)
      omega
    · have := hc.order hu
      omega
  · omega
  · exact length_eq_zero_iff.mp (by omega)

theorem front_line {s : List UInt8} {i : Nat} (h : findCrlf s = some i) :
    ∃ l rest, s = l ++ crlf ++ rest ∧ l.length = i ∧ s.drop (i + 2) = rest := by
  obtain ⟨rest, hs⟩ := findCrlf_split h
  have hi : (s.take i).length = i := by
    rw [length_take]
    have := findCrlf_lt h
    omega
  refine ⟨s.take i, rest, ?_, hi, ?_⟩
  · conv_lhs => rw [hs]
    simp [crlf]
  · conv_lhs => rw [hs]
    rw [drop_append, hi]
    simp

/-- Where the counters agree there is a size line to read. -/
theorem Along.at_line (h : Along sent input r done spot)
    (hdef : r.currentChunkLen = r.chunkBytesRead) : spot = .line := by
  cases spot with
  | line => rfl
  | inside l d u =>
    obtain ⟨-, hread, hlt, -⟩ := h.at_spot
    omega

/-- Only the bytes to come and the counters of the chunk matter. -/
theorem Along.congr {input' : List UInt8} (h : Along sent input r done spot)
    (hrest : r'.pstrblockRead ++ input' = r.pstrblockRead ++ input)
    (hcur : r'.currentChunkLen = r.currentChunkLen) (hread : r'.chunkBytesRead = r.chunkBytesRead) :
    Along sent input' r' done spot := by
  refine ⟨by rw [hrest]; exact h.bytes, by rw [hrest]; exact h.sized, ?_⟩
  have hat := h.at_spot
  cases spot with
  | line => exact hcur.trans (hat.trans hread.symm)
  | inside l d u =>
    unfold Spot.At at hat ⊢
    rw [hrest, hcur, hread]
    exact hat

/-- A size line leads into a chunk or to the end of the body. -/
theorem Along.line (h : Along sent input r done .line) (hround : DefRound r none r') :
    (∃ l, Along sent input r' done (.inside l [] [])) ∨
      r'.currentChunkLen = 0 ∧ ∃ last, AtEnd sent input r' done last := by
  have hbytes : sent = takenBytes done ++ (r.pstrblockRead ++ input) := h.bytes
  have hsized : Sized (r.pstrblockRead ++ input) done := h.sized
  cases hround with
  | @chunk i v stop hcr hnum hne =>
    obtain ⟨l, rest, hblk, -, hdrop⟩ := front_line hcr
    have hnum' := strtol_append hnum input
    rw [hblk, append_assoc (l ++ crlf)] at hbytes hsized hnum'
    have hsize : storedSize v < 2 ^ 32 := by
      unfold storedSize toUInt32
      omega
    by_cases hcur : (storedSize v + 2) % 2 ^ 32 = 0
    · refine .inr ⟨hcur, ⟨l, []⟩, ?_⟩
      constructor <;> simp only [TakenLast.bytes, TakenLast.SizedIn, append_nil, hdrop]
      · exact hbytes
      · exact hsized
      · exact ⟨v, stop ++ input, hnum', .inr ⟨by omega, trivial⟩⟩
    · refine .inl ⟨l, ?_⟩
      constructor <;> simp only [Spot.bytes, Spot.At, append_nil, hdrop]
      · exact hbytes
      · exact hsized
      · exact ⟨⟨v, stop ++ input, hnum', hne, rfl⟩, rfl, Nat.pos_of_ne_zero hcur, Nat.zero_le _,
          fun hnil => absurd rfl hnil, fun h0 => absurd rfl h0⟩
  | @last i v stop ended offset hcr hnum hzero hlen =>
    obtain ⟨l, rest, hblk, hl, hdrop⟩ := front_line hcr
    have hrest : rest = rest.take 2 ++ rest.drop 2 := (take_append_drop _ _).symm
    have hdrop' : r.pstrblockRead.drop (i + 4) = rest.drop 2 := by
      rw [← hdrop, drop_drop]
    have htail : (rest.take 2).length = 2 := by
      have := congrArg length hblk
      simp only [length_append, crlf_length] at this
      rw [length_take]
      omega
    have hfront : r.pstrblockRead ++ input = l ++ crlf ++ rest.take 2 ++ (rest.drop 2 ++ input) := by
      conv_lhs => rw [hblk, hrest]
      simp only [append_assoc]
    have hnum' := strtol_append hnum input
    rw [hfront] at hbytes hsized hnum'
    refine .inr ⟨rfl, ⟨l, rest.take 2⟩, ?_⟩
    constructor <;> simp only [hdrop']
    · exact hbytes
    · exact hsized
    · exact ⟨v, stop ++ input, hnum', .inl ⟨hzero, htail⟩⟩

/-- At the beginning of a round: `out` was delivered by earlier calls, `w` are the data of this one. -/
def ChunkDecoding (sent input out : List UInt8) (w : Option (List UInt8)) (r : Reader) : Prop :=
  ∃ done spot, Along sent input r done spot ∧ out ++ w.getD [] = takenData done ++ spot.data ∧
    r.writeToModulePending = (w.getD []).length ∧ (r.writeToModulePending ≠ 0 → spot = .line)

/-- Behind a size line. -/
def InChunk (sent input out : List UInt8) (w : Option (List UInt8)) (r : Reader) : Prop :=
  (r.currentChunkLen ≠ 0 ∧ ∃ done l d u, Along sent input r done (.inside l d u) ∧
      out ++ w.getD [] = takenData done ++ d ∧ r.writeToModulePending = (w.getD []).length) ∨
    r.currentChunkLen = 0 ∧ ∃ done last, AtEnd sent input r done last ∧
      out ++ w.getD [] = takenData done ∧ r.writeToModulePending = (w.getD []).length

/-- A call has returned. -/
def ChunkDecoded (sent input out : List UInt8) (ret : ChunkRet) (w : Option (List UInt8)) (r : Reader) : Prop :=
  ret ≠ .error → ret ≠ .wild →
    r.writeToModulePending = (w.getD []).length ∧
    (ret ≠ .eof → ∃ done spot, Along sent input r done spot ∧
      out ++ w.getD [] = takenData done ++ spot.data) ∧
    (ret = .eof → ∃ done last, AtEnd sent input r done last ∧ out ++ w.getD [] = takenData done)

theorem takenData_append (ks : List TakenChunk) (k : TakenChunk) :
    takenData (ks ++ [k]) = takenData ks ++ k.data := by
  simp [takenData]

theorem round_decodes (sent input out : List UInt8) :
    RoundKeeps (ChunkDecoding sent input out) (InChunk sent input out) (ChunkDecoded sent input out) where
  eof := by
    rintro w r (⟨hcur, -⟩ | ⟨-, done, last, hend, hout, hpend⟩) h0 - -
    · exact absurd h0 hcur
    · exact ⟨hpend, fun hne => absurd rfl hne, fun _ => ⟨done, last, hend, hout⟩⟩
  ok := by
    rintro w r (⟨-, done, l, d, u, halong, hout, hpend⟩ | ⟨h0, -⟩) hcur - - -
    · exact ⟨hpend, fun _ => ⟨done, _, halong, hout⟩, nofun⟩
    · exact absurd h0 hcur
  more := by
    rintro w r (⟨-, done, l, d, u, halong, hout, hpend⟩ | ⟨h0, -⟩) hcur - - - -
    · exact ⟨hpend, fun _ => ⟨done, _, halong, hout⟩, nofun⟩
    · exact absurd h0 hcur
  wild := fun _ _ _ _ hwild => absurd rfl hwild
  data := by
    rintro w r w' r' m (⟨-, done, l, d, u, halong, hout, hpend⟩ | ⟨h0, -⟩) hcur hnone - hround
    · -- nothing was delivered by this call before
      have hw : w.getD [] = [] := length_eq_zero_iff.mp (hpend ▸ hnone)
      rw [hw, append_nil] at hout
      have hpend' : r'.writeToModulePending = w'.length := by
        rw [hround.taken, hround.data, length_take]
        show min (m - 2) r.pstrblockRead.length = _
        omega
      rcases halong.data hround with ⟨u', hin, hnil⟩ | ⟨u', hline⟩
      · have hout' : out ++ w' = takenData done ++ (Spot.inside l (d ++ w') u').data := by
          rw [hout, append_assoc]
          rfl
        exact ⟨fun _ _ _ => ⟨hpend', fun _ => ⟨done, _, hin, hout'⟩, nofun⟩, fun hne => absurd hnil hne⟩
      · have hout' : out ++ w' = takenData (done ++ [⟨l, d ++ w', u'⟩]) ++ Spot.line.data := by
          rw [takenData_append, hout]
          simp [Spot.data]
        exact ⟨fun _ _ _ => ⟨hpend', fun _ => ⟨_, _, hline, hout'⟩, nofun⟩,
          fun _ => ⟨_, _, hline, hout', hpend', fun _ => rfl⟩⟩
    · exact absurd h0 hcur

/-- **One call on any bytes.** -/
theorem parseChunkData_decodes {out : List UInt8} {ret : ChunkRet}
    {w : Option (List UInt8)} (h : Along sent input r done spot) (hout : out = takenData done ++ spot.data)
    (hpend : r.writeToModulePending = 0) (hcall : parseChunkData r = (ret, w, r')) :
    ChunkDecoded sent input out ret w r' := by
  have hrule := parseChunkLoop_rounds (round_decodes sent input out) ?_ ?_ ?_ ?_
    (r.pstrblockRead.length + 1) (w := none) (r := r)
    ⟨done, spot, h, by simpa using hout, hpend, fun hne => absurd hpend hne⟩
  · unfold parseChunkData at hcall
    rw [if_neg (not_not.mpr hpend)] at hcall
    rw [hcall] at hrule
    exact hrule
  · -- a value is returned at the size line
    rintro w r ret r' ⟨done, spot, halong, hout, hpend, hline⟩ hdef hround herr hwild
    obtain rfl := halong.at_line hdef
    cases hround with
    | incomplete _ _ => exact ⟨hpend, fun _ => ⟨done, _, halong, hout⟩, nofun⟩
    | waits _ _ _ _ =>
      exact ⟨hpend, fun _ => ⟨done, .line, ⟨halong.bytes, halong.sized, rfl⟩, hout⟩, nofun⟩
    | fails hret => exact absurd hret (by simp [herr, hwild])
  · -- the size line is taken
    rintro w r r' ⟨done, spot, halong, hout, hpend, hline⟩ hdef hround
    obtain rfl := halong.at_line hdef
    have hpend' : r'.writeToModulePending = (w.getD []).length := by
      cases hround <;> exact hpend
    rcases halong.line hround with ⟨l, hin⟩ | ⟨hcur, last, hend⟩
    · refine .inl ⟨?_, done, l, [], [], hin, hout, hpend'⟩
      obtain ⟨-, -, hlt, -⟩ := hin.at_spot
      exact Nat.ne_of_gt hlt
    · exact .inr ⟨hcur, done, last, hend, by simpa [Spot.data] using hout, hpend'⟩
  · -- the round begins inside a chunk
    rintro w r ⟨done, spot, halong, hout, hpend, hline⟩ hdef
    cases spot with
    | line => exact absurd halong.at_spot hdef
    | inside l d u =>
      obtain ⟨-, -, hlt, -⟩ := halong.at_spot
      exact .inl ⟨by omega, done, l, d, u, halong, hout, hpend⟩
  · exact fun _ _ _ _ hwild => absurd rfl hwild

end Call

/-! ## A whole reading -/

/-- What a reading without errors has come to. -/
structure ChunkReading (sent : List UInt8) (s : Session) : Prop where
  going : ¬ s.Ended → s.req.writeToModulePending = 0 ∧
    ∃ done spot, Along sent s.input s.req done spot ∧ s.out = takenData done ++ spot.data
  ended : s.Ended → ∃ done last, AtEnd sent s.input s.req done last ∧ s.out = takenData done

/-- No call has failed. -/
def Session.Clean (s : Session) : Prop := ∀ ret ∈ s.rets, ret ≠ .error ∧ ret ≠ .wild

instance (s : Session) : Decidable s.Clean :=
  inferInstanceAs (Decidable (∀ ret ∈ s.rets, _))

theorem chunkReading_step {sent : List UInt8} {s : Session} (h : ChunkReading sent s) (a : Act)
    (hclean : (sessionStep s a).Clean) : ChunkReading sent (sessionStep s a) := by
  unfold sessionStep at hclean ⊢
  by_cases hend : s.Ended
  · rw [if_pos hend]
    exact h
  rw [if_neg hend] at hclean ⊢
  obtain ⟨hpend, done, spot, halong, hout⟩ := h.going hend
  cases a with
  | read k =>
    unfold netDataRead
    split_ifs with hfull
    · exact h
    · refine ⟨fun _ => ⟨hpend, done, spot, halong.congr ?_ rfl rfl, hout⟩, fun hend' => absurd hend' hend⟩
      rw [append_assoc, prefix_iff_eq_append.mp ( take_prefix _ _)]
  | parse =>
    rcases hcall : parseChunkData s.req with ⟨ret, res⟩
    obtain ⟨w, r'⟩ := res
    rw [hcall] at hclean
    have hret := hclean ret (mem_cons_self ..)
    obtain ⟨hpend', hgo, heof⟩ := parseChunkData_decodes halong hout hpend hcall hret.1 hret.2
    have hw : (w.getD []).take r'.writeToModulePending = w.getD [] := by
      rw [hpend', take_length]
    dsimp only
    rw [hw]
    constructor
    · intro hnot
      have hne : ret ≠ .eof := fun he => hnot (by rw [he]; rfl)
      obtain ⟨done', spot', halong', hout'⟩ := hgo hne
      exact ⟨rfl, done', spot', halong'.congr rfl rfl rfl, hout'⟩
    · intro hend'
      have he : ret = .eof := Option.some.inj hend'
      obtain ⟨done', last, hat, hout'⟩ := heof he
      exact ⟨done', last, { hat with }, hout'⟩

theorem chunkReading_run {sent : List UInt8} {s : Session} (h : ChunkReading sent s) (acts : List Act)
    (hclean : (run sessionStep s acts).Clean) : ChunkReading sent (run sessionStep s acts) := by
  -- an action adds to the results
  have hmono : ∀ s a, (sessionStep s a).Clean → s.Clean := by
    intro s a hc ret hret
    apply hc
    unfold sessionStep
    split_ifs
    · exact hret
    · cases a with
      | read k =>
        dsimp only
        split <;> exact hret
      | parse => exact mem_cons_of_mem _ hret
  have hstep : ∀ s a, (s.Clean → ChunkReading sent s) → (sessionStep s a).Clean →
      ChunkReading sent (sessionStep s a) :=
    fun s a hs hc => chunkReading_step (hs (hmono s a hc)) a hc
  exact run_inv_all hstep (fun _ => h) acts hclean

end CIcap
