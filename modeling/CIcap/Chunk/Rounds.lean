import CIcap.Chunk.Session

/-! # The rounds of the chunk parser on any bytes

`Decode.lean` follows the parser along a well-formed body. Here nothing is known about the bytes in
the read buffer: `DefRound` lists what the reading of a size line can come to, `DataRound` what the
reading of chunk data does, and `parseChunkLoop_rounds` is the induction rule for a whole call: what
these steps keep holds of what the call returns.
-/

namespace CIcap

open CText Chunked Machine List

/-- A line end that is found is in the block, with the line in front of it. -/
theorem findCrlf_split {s : List UInt8} {i : Nat} (h : findCrlf s = some i) :
    ∃ rest, s = s.take i ++ 13 :: 10 :: rest := by
  induction s generalizing i with
  | nil => cases h
  | cons b bs ih =>
    rw [findCrlf] at h
    split_ifs at h with hcr
    · obtain ⟨rfl, hlf⟩ := hcr
      obtain rfl := Option.some.inj h
      obtain ⟨rest, rfl⟩ : ∃ rest, bs = 10 :: rest := by
        cases bs with
        | nil => cases hlf
        | cons c cs => exact ⟨cs, by rw [Option.some.inj hlf]⟩
      exact ⟨rest, rfl⟩
    · obtain ⟨j, hj, rfl⟩ := Option.map_eq_some_iff.mp h
      obtain ⟨rest, hrest⟩ := ih hj
      refine ⟨rest, ?_⟩
      rw [take_succ_cons, cons_append, ← hrest]

theorem findCrlf_lt {s : List UInt8} {i : Nat} (h : findCrlf s = some i) : i + 2 ≤ s.length := by
  obtain ⟨rest, hs⟩ := findCrlf_split h
  have hlen := congrArg length hs
  rw [length_append, length_take] at hlen
  simp only [length_cons] at hlen
  omega

/-- The size a line gives to the chunk, as the `unsigned int` that is stored. -/
def storedSize (v : Int) : Nat := toUInt32 (toInt32 v)

/-- What the reading of a size line can come to. -/
inductive DefRound (r : Reader) : Option ChunkRet → Reader → Prop
  /-- no line end in the block -/
  | incomplete : findCrlf r.pstrblockRead = none → r.pstrblockRead.length < bufSize →
      DefRound r (some .needsMore) r
  /-- the last chunk, without the two bytes behind its line -/
  | waits {i : Nat} {v : Int} {stop : List UInt8} : findCrlf r.pstrblockRead = some i →
      strtol 16 r.pstrblockRead = some (v, stop) → storedSize v = 0 →
      r.pstrblockRead.length < i + 4 → DefRound r (some .needsMore)
        { r with
          currentChunkLen := 0
          chunkBytesRead := 0
          requestBytesIn := r.requestBytesIn + (i + 2) }
  /-- the line of a chunk is taken -/
  | chunk {i : Nat} {v : Int} {stop : List UInt8} : findCrlf r.pstrblockRead = some i →
      strtol 16 r.pstrblockRead = some (v, stop) → storedSize v ≠ 0 → DefRound r none
        { r with
          pstrblockRead := r.pstrblockRead.drop (i + 2)
          currentChunkLen := (storedSize v + 2) % 2 ^ 32
          chunkBytesRead := 0
          requestBytesIn := r.requestBytesIn + (i + 2) }
  /-- the last chunk is taken with the two bytes behind its line -/
  | last {i : Nat} {v : Int} {stop : List UInt8} {ended : Bool} {offset : Int} :
      findCrlf r.pstrblockRead = some i → strtol 16 r.pstrblockRead = some (v, stop) →
      storedSize v = 0 → i + 4 ≤ r.pstrblockRead.length → DefRound r none
        { r with
          pstrblockRead := r.pstrblockRead.drop (i + 4)
          currentChunkLen := 0
          chunkBytesRead := 0
          requestBytesIn := r.requestBytesIn + (i + 4)
          eofReceived := ended
          i206UseOriginalBody := offset }
  /-- the call fails -/
  | fails {ret : ChunkRet} {r' : Reader} : ret = .error ∨ ret = .wild → DefRound r (some ret) r'

theorem endChunkDef_round {r₀ r : Reader} {n : Nat} {stop : List UInt8}
    (h : DefRound r₀ none { r with pstrblockRead := r.pstrblockRead.drop n }) :
    DefRound r₀ (endChunkDef r n stop).1 (endChunkDef r n stop).2 := by
  unfold endChunkDef
  split
  · exact h
  · exact .fails (.inr rfl)
  · exact .fails (.inr rfl)
  · exact .fails (.inl rfl)

theorem lastChunkExt_round {r₀ r : Reader} {n : Nat} (stop : List UInt8)
    (h : ∀ ended offset, DefRound r₀ none { r with
      pstrblockRead := r.pstrblockRead.drop n
      eofReceived := ended
      i206UseOriginalBody := offset }) :
    DefRound r₀ (lastChunkExt r n stop).1 (lastChunkExt r n stop).2 := by
  unfold lastChunkExt
  split
  · exact .fails (.inr rfl)
  dsimp only
  split
  · -- the text behind the `;` is refused
    rename_i e he
    refine .fails ?_
    split_ifs at he
    · split at he
      · cases he
        exact .inr rfl
      · cases he
    · cases he
      exact .inl rfl
  · rename_i r' stop' he
    -- only the offset may have been set
    have hr' : ∃ offset, r' = { r with i206UseOriginalBody := offset } := by
      split_ifs at he
      · split at he
        · cases he
        · cases he
          exact ⟨_, rfl⟩
      · cases he
        exact ⟨_, rfl⟩
    obtain ⟨offset, rfl⟩ := hr'
    split
    · exact .fails (.inr rfl)
    · exact endChunkDef_round (h true offset)

theorem lastChunkDef_round {r : Reader} {i : Nat} {v : Int} {stop : List UInt8} (stop' : List UInt8)
    (hcr : findCrlf r.pstrblockRead = some i) (hnum : strtol 16 r.pstrblockRead = some (v, stop))
    (hzero : storedSize v = 0) :
    DefRound r (lastChunkDef { r with
        currentChunkLen := 0
        chunkBytesRead := 0
        requestBytesIn := r.requestBytesIn + (i + 2) } (i + 2) stop').1
      (lastChunkDef { r with
        currentChunkLen := 0
        chunkBytesRead := 0
        requestBytesIn := r.requestBytesIn + (i + 2) } (i + 2) stop').2 := by
  unfold lastChunkDef
  have hlen : (r.pstrblockRead.drop (i + 2)).length = r.pstrblockRead.length - (i + 2) :=
    length_drop
  split
  · rename_i a b more hdrop
    rw [hdrop] at hlen
    simp only [length_cons] at hlen
    have hlast : ∀ ended offset, DefRound r none { r with
        pstrblockRead := r.pstrblockRead.drop (i + 2 + 2)
        currentChunkLen := 0
        chunkBytesRead := 0
        requestBytesIn := r.requestBytesIn + (i + 2) + 2
        eofReceived := ended
        i206UseOriginalBody := offset } :=
      fun _ _ => .last hcr hnum hzero (by omega)
    split_ifs with hbad
    · exact .fails (.inl rfl)
    · split
      · exact lastChunkExt_round _ hlast
      · exact endChunkDef_round (hlast r.eofReceived r.i206UseOriginalBody)
  · rename_i hshort
    refine .waits hcr hnum hzero ?_
    by_contra hle
    rcases hd : r.pstrblockRead.drop (i + 2) with _ | ⟨a, _ | ⟨b, more⟩⟩
    · rw [hd] at hlen
      simp only [length_nil] at hlen
      omega
    · rw [hd] at hlen
      simp only [length_cons, length_nil] at hlen
      omega
    · exact hshort a b more hd

theorem readChunkDef_round (r : Reader) : DefRound r (readChunkDef r).1 (readChunkDef r).2 := by
  unfold readChunkDef
  cases hcr : findCrlf r.pstrblockRead with
  | none =>
    split_ifs with hfull
    · exact .fails (.inl rfl)
    · exact .incomplete hcr (by omega)
  | some i =>
    dsimp only
    cases hnum : strtol 16 r.pstrblockRead with
    | none => exact .fails (.inr rfl)
    | some res =>
      obtain ⟨v, stop⟩ := res
      dsimp only
      by_cases hnone : toInt32 v = 0 ∧ stop.length = r.pstrblockRead.length
      · rw [if_pos hnone]
        exact .fails (.inl rfl)
      rw [if_neg hnone]
      cases skipWhile isBlank stop with
      | none => exact .fails (.inr rfl)
      | some stop' =>
        dsimp only
        by_cases hzero : toUInt32 (toInt32 v) = 0
        · rw [hzero]
          exact lastChunkDef_round stop' hcr hnum hzero
        · rw [if_neg hzero]
          exact endChunkDef_round (.chunk hcr hnum hzero)

/-- What the reading of chunk data does: `m` bytes of the chunk are still to come, the line end with
them, and as many of them are taken as there are in the block. -/
structure DataRound (r : Reader) (w : List UInt8) (r' : Reader) (m : Nat) : Prop where
  remains : toInt32 ((r.currentChunkLen : Int) - r.chunkBytesRead) = m
  data : w = r.pstrblockRead.take (min (m - 2) r.pstrblockRead.length)
  taken : r' = takeChunkData r (min m r.pstrblockRead.length) (min (m - 2) r.pstrblockRead.length)

theorem readChunkData_round {r r' : Reader} {w : List UInt8} (h : readChunkData r = some (w, r')) :
    ∃ m, DataRound r w r' m := by
  obtain ⟨m, hm⟩ : ∃ m : Nat, toInt32 ((r.currentChunkLen : Int) - r.chunkBytesRead) = m := by
    refine Int.eq_ofNat_of_zero_le ?_
    by_contra hneg
    unfold readChunkData at h
    rw [if_pos (by omega), if_pos (by omega)] at h
    cases h
  rw [readChunkData_eq hm] at h
  cases h
  exact ⟨m, hm, rfl, rfl⟩

section Call

variable {P M : Option (List UInt8) → Reader → Prop}
  {Q : ChunkRet → Option (List UInt8) → Reader → Prop}

/-- What a round makes of `M`, which holds once the size line, if there was one to read, is taken. -/
structure RoundKeeps (P M : Option (List UInt8) → Reader → Prop)
    (Q : ChunkRet → Option (List UInt8) → Reader → Prop) : Prop where
  eof : ∀ w r, M w r → r.currentChunkLen = 0 → Q .eof w r
  ok : ∀ w r, M w r → r.currentChunkLen ≠ 0 → r.writeToModulePending ≠ 0 → Q .ok w r
  more : ∀ w r, M w r → r.currentChunkLen ≠ 0 → r.writeToModulePending = 0 → r.pstrblockRead = [] →
    Q .needsMore w r
  wild : ∀ w r, M w r → Q .wild w r
  data : ∀ w r w' r' m, M w r → r.currentChunkLen ≠ 0 → r.writeToModulePending = 0 →
    r.pstrblockRead ≠ [] → DataRound r w' r' m →
    (r'.pstrblockRead = [] → Q .needsMore (some w') r') ∧
      (r'.pstrblockRead ≠ [] → P (some w') r')

theorem chunkRound_keeps (h : RoundKeeps P M Q) {w : Option (List UInt8)} {r : Reader} (hM : M w r) :
    match chunkRound w r with
    | .inl (ret, w', r') => Q ret w' r'
    | .inr (w', r') => P (some w') r' := by
  unfold chunkRound
  by_cases hcur : r.currentChunkLen = 0
  · rw [if_pos hcur]
    exact h.eof w r hM hcur
  rw [if_neg hcur]
  by_cases hpend : r.writeToModulePending ≠ 0
  · rw [if_pos hpend]
    exact h.ok w r hM hcur hpend
  rw [if_neg hpend]
  by_cases hblk : r.pstrblockRead = []
  · rw [if_pos hblk]
    exact h.more w r hM hcur (not_not.mp hpend) hblk
  rw [if_neg hblk]
  cases hread : readChunkData r with
  | none => exact h.wild w r hM
  | some res =>
    obtain ⟨w', r'⟩ := res
    obtain ⟨m, hround⟩ := readChunkData_round hread
    obtain ⟨hend, hgo⟩ := h.data w r w' r' m hM hcur (not_not.mp hpend) hblk hround
    dsimp only
    by_cases hblk' : r'.pstrblockRead = []
    · rw [if_pos hblk']
      exact hend hblk'
    · rw [if_neg hblk']
      exact hgo hblk'

/-- **The rule for a call of the parser.** `P` holds at the beginning of a round, `M` behind the size
line and `Q` of what is returned. -/
theorem parseChunkLoop_rounds (hround : RoundKeeps P M Q)
    (hret : ∀ w r ret r', P w r → r.currentChunkLen = r.chunkBytesRead →
      DefRound r (some ret) r' → Q ret w r')
    (hline : ∀ w r r', P w r → r.currentChunkLen = r.chunkBytesRead → DefRound r none r' → M w r')
    (hinside : ∀ w r, P w r → r.currentChunkLen ≠ r.chunkBytesRead → M w r)
    (hfuel : ∀ w r, P w r → Q .wild w r) (fuel : Nat) {w : Option (List UInt8)} {r : Reader}
    (h : P w r) :
    Q (parseChunkLoop fuel w r).1 (parseChunkLoop fuel w r).2.1 (parseChunkLoop fuel w r).2.2 := by
  induction fuel generalizing w r with
  | zero => exact hfuel w r h
  | succ fuel ih =>
    -- the rest of a round behind the size line
    have hrest : ∀ r₁, M w r₁ →
        Q (afterRound fuel (chunkRound w r₁)).1 (afterRound fuel (chunkRound w r₁)).2.1
          (afterRound fuel (chunkRound w r₁)).2.2 := by
      intro r₁ hM
      have hkeeps := chunkRound_keeps hround hM
      cases hres : chunkRound w r₁ with
      | inl res =>
        rw [hres] at hkeeps
        exact hkeeps
      | inr res =>
        rw [hres] at hkeeps
        exact ih hkeeps
    unfold parseChunkLoop
    by_cases hdef : r.currentChunkLen = r.chunkBytesRead
    · rw [if_pos hdef]
      have hcase := readChunkDef_round r
      rcases hread : readChunkDef r with ⟨ret, r₁⟩
      rw [hread] at hcase
      cases ret with
      | some ret => exact hret w r ret r₁ h hdef hcase
      | none => exact hrest r₁ (hline w r r₁ h hdef hcase)
    · rw [if_neg hdef]
      exact hrest r (hinside w r h hdef)

end Call

end CIcap
