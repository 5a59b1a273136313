import CIcap.Chunk.Rounds

/-! # The bytes counted by the chunk parser

`request_bytes_in` is meant to grow by what the parser takes off the read buffer. The size line of the
last chunk is counted as soon as it is complete, but it is taken only together with the line end behind
it: a call in between counts it and leaves it in the buffer. `parseChunkData_counts` says what one call
counts, `session_counts` when the count of a whole reading is right.
-/

namespace CIcap

open CText Chunked Machine List

/-- The bytes of the first line of the block, or zero when the block has no line end. -/
def Reader.lineBytes (r : Reader) : Nat :=
  match findCrlf r.pstrblockRead with
  | some i => i + 2
  | none => 0

/-- What a call has counted without taking it, when it returns `ret`. -/
def countedTwice (ret : ChunkRet) (r : Reader) : Nat := if ret = .needsMore then r.lineBytes else 0

theorem lineBytes_of_nil {r : Reader} (h : r.pstrblockRead = []) : r.lineBytes = 0 := by
  unfold Reader.lineBytes
  rw [h]
  rfl

/-- The bytes counted and the bytes left in the buffer. -/
def Reader.total (r : Reader) : Nat := r.requestBytesIn + r.pstrblockRead.length

theorem DataRound.total {r r' : Reader} {w : List UInt8} {m : Nat} (h : DataRound r w r' m) :
    r'.total = r.total := by
  rw [h.taken]
  unfold Reader.total takeChunkData
  dsimp only
  rw [length_drop]
  omega

/-- **What a call counts.** It counts the bytes it takes, and the size line of a last chunk it has to
wait for. -/
theorem parseChunkData_counts {r r' : Reader} {ret : ChunkRet} {w : Option (List UInt8)}
    (hcall : parseChunkData r = (ret, w, r')) (herr : ret ≠ .error) (hwild : ret ≠ .wild) :
    r'.total = r.total + countedTwice ret r' := by
  unfold parseChunkData at hcall
  split_ifs at hcall with hpend
  · cases hcall
    exact absurd rfl herr
  have hrule := parseChunkLoop_rounds
    (P := fun _ s => s.total = r.total) (M := fun _ s => s.total = r.total)
    (Q := fun ret _ s => ret ≠ .error → ret ≠ .wild → s.total = r.total + countedTwice ret s)
    ?_ ?_ ?_ ?_ ?_ (r.pstrblockRead.length + 1) (w := none) (r := r) rfl
  · rw [hcall] at hrule
    exact hrule herr hwild
  · refine ⟨fun _ s h _ _ _ => h, fun _ s h _ _ _ _ => h, fun _ s h _ _ hnil _ _ => ?_,
      fun _ _ _ _ hw => absurd rfl hw, fun _ s w' s' m h _ _ _ hround => ⟨fun hnil _ _ => ?_, fun _ => ?_⟩⟩
    · rw [countedTwice, lineBytes_of_nil hnil]
      exact h
    · rw [countedTwice, lineBytes_of_nil hnil]
      exact hround.total.trans h
    · exact hround.total.trans h
  · -- a value is returned at the size line
    intro _ s ret s' h _ hround herr' hwild'
    rw [← h]
    cases hround with
    | incomplete hno _ =>
      unfold countedTwice Reader.lineBytes
      rw [hno]
      rfl
    | waits hcr _ _ _ =>
      unfold countedTwice Reader.lineBytes Reader.total
      rw [if_pos rfl, hcr]
      dsimp only
      omega
    | fails hret => exact absurd hret (by simp [herr', hwild'])
  · -- the size line is taken
    intro _ s s' h _ hround
    rw [← h]
    cases hround with
    | chunk hcr _ _ =>
      have hle := findCrlf_lt hcr
      unfold Reader.total
      dsimp only
      rw [length_drop]
      omega
    | last hcr _ _ hle =>
      unfold Reader.total
      dsimp only
      rw [length_drop]
      omega
  · exact fun _ _ h _ => h
  · exact fun _ _ _ _ hw => absurd rfl hw

/-! ## A whole reading -/

/-- A call asks for more although there is a whole line in the buffer: the size line of the last chunk,
which waits for the line end behind it. -/
def Reader.EndsEarly (r : Reader) : Prop :=
  (parseChunkData r).1 = .needsMore ∧ findCrlf (parseChunkData r).2.2.pstrblockRead ≠ none

instance (r : Reader) : Decidable r.EndsEarly :=
  inferInstanceAs (Decidable (_ ∧ _))

/-- The action is such a call. -/
def Session.early (s : Session) (a : Act) : Prop := a = .parse ∧ ¬ s.Ended ∧ s.req.EndsEarly

instance (s : Session) (a : Act) : Decidable (s.early a) :=
  inferInstanceAs (Decidable (_ ∧ _))

/-- The number of bytes of `sent` that the parser has taken off the read buffer. -/
def Session.consumed (sent : List UInt8) (s : Session) : Nat :=
  sent.length - (s.req.pstrblockRead ++ s.input).length

/-- The bytes counted, those in the buffer and those to come. -/
def Session.total (s : Session) : Nat := s.req.total + s.input.length

theorem session_total_read (s : Session) (k : Nat) : (sessionStep s (.read k)).total = s.total ∧
      (sessionStep s (.read k)).req.requestBytesIn = s.req.requestBytesIn := by
  unfold sessionStep
  split_ifs with hend
  · exact ⟨rfl, rfl⟩
  · unfold netDataRead
    split_ifs with hfull
    · exact ⟨rfl, rfl⟩
    · unfold Session.total Reader.total
      simp only [length_append, length_drop, length_take]
      exact ⟨by omega, trivial⟩

/-- A call that fails nothing counts right, unless it is early. -/
theorem session_total_parse {s : Session} (hend : ¬ s.Ended)
    (herr : (parseChunkData s.req).1 ≠ .error) (hwild : (parseChunkData s.req).1 ≠ .wild) :
    s.total ≤ (sessionStep s .parse).total ∧
      ((sessionStep s .parse).total = s.total ↔ ¬ s.early .parse) := by
  have hcount : (parseChunkData s.req).2.2.total =
      s.req.total + countedTwice (parseChunkData s.req).1 (parseChunkData s.req).2.2 :=
    parseChunkData_counts rfl herr hwild
  have hstep : (sessionStep s .parse).total = (parseChunkData s.req).2.2.total + s.input.length := by
    unfold sessionStep
    rw [if_neg hend]
    rfl
  have hearly : s.early .parse ↔ countedTwice (parseChunkData s.req).1 (parseChunkData s.req).2.2 ≠ 0 := by
    unfold Session.early Reader.EndsEarly countedTwice Reader.lineBytes
    rw [ite_ne_right_iff]
    constructor
    · rintro ⟨-, -, hret, hline⟩
      refine ⟨hret, ?_⟩
      cases hcr : findCrlf (parseChunkData s.req).2.2.pstrblockRead with
      | none => exact absurd hcr hline
      | some i => exact Nat.succ_ne_zero _
    · rintro ⟨hret, hline⟩
      refine ⟨rfl, hend, hret, fun hcr => ?_⟩
      rw [hcr] at hline
      exact hline rfl
  rw [hstep, hearly]
  unfold Session.total
  omega

section Session

variable {r₀ : Reader} {cs : List Chunk} {t : LastChunk}

/-- On a well-formed body no call fails or gives bytes back. -/
theorem SessionAt.no_failure (ht : t.Fits) {s : Session} {p : Pos} (h : SessionAt r₀ cs t s p)
    (hend : ¬ s.Ended) :
    (parseChunkData s.req).1 ≠ .error ∧ (parseChunkData s.req).1 ≠ .wild ∧
      (parseChunkData s.req).2.2.pstrblockRead.length ≤ s.req.pstrblockRead.length := by
  have hfin : p ≠ .finished := fun hp => hend (h.ended.mpr hp)
  obtain ⟨ret, w, r', p', hcall, -, hspec⟩ := parseChunkData_spec ht h.at_pos hfin
    h.chunks (h.stream.trans (append_nil _).symm) h.pending
  rw [hcall]
  exact ⟨hspec.no_error.1, hspec.no_error.2, hspec.shorter⟩

/-- The bytes that are not taken yet. -/
def Session.left (s : Session) : Nat := (s.req.pstrblockRead ++ s.input).length

theorem session_left_read (s : Session) (k : Nat) : (sessionStep s (.read k)).left = s.left := by
  obtain ⟨htotal, hcount⟩ := session_total_read s k
  unfold Session.total Reader.total at htotal
  unfold Session.left
  rw [length_append, length_append]
  omega

theorem session_left_parse {s : Session} (hend : ¬ s.Ended)
    (hshort : (parseChunkData s.req).2.2.pstrblockRead.length ≤ s.req.pstrblockRead.length) :
    (sessionStep s .parse).left ≤ s.left := by
  have hstep : (sessionStep s .parse).left =
      ((parseChunkData s.req).2.2.pstrblockRead ++ s.input).length := by
    unfold sessionStep
    rw [if_neg hend]
    rfl
  rw [hstep]
  unfold Session.left
  rw [length_append, length_append]
  omega

/-- The count is right when the bytes counted, in the buffer and to come are all that was sent. -/
theorem counted_iff_total {sent : List UInt8} {s : Session} (hle : s.left ≤ sent.length) :
    s.req.requestBytesIn = r₀.requestBytesIn + s.consumed sent ↔
      s.total = r₀.requestBytesIn + sent.length := by
  unfold Session.left at hle
  unfold Session.consumed Session.total Reader.total
  rw [length_append] at hle ⊢
  omega

end Session

end CIcap
