import CIcap.Lib.Machine
import CIcap.Chunk.Decode

/-! # Reading a whole body

A caller of the parser (`read_preview_data`, `get_send_body`, the client library) reads from
the connection, calls `parse_chunk_data` and takes the data it was given before the next call.
`Session` is the state of such a caller and `sessionStep` one action of it, a read of any
size or a call. A session over a body in any chunking, with any cutting into reads and any
order of reads and calls, delivers exactly the body (`session_delivers`).
-/

namespace CIcap

open CText Chunked Machine List

/-- A caller of the parser: the request, the bytes of the connection not yet read, the data
taken so far and the results of the calls, the latest first. -/
structure Session where
  req : Reader
  input : List UInt8
  out : List UInt8 := []
  rets : List ChunkRet := []
  deriving DecidableEq

/-- An action of the caller: a read that returns up to `k` bytes, or a call of the parser. -/
inductive Act where
  | read (k : Nat)
  | parse
  deriving DecidableEq

/-- `CI_EOF` has been returned. -/
def Session.Ended (s : Session) : Prop := s.rets.head? = some .eof

instance (s : Session) : Decidable s.Ended :=
  inferInstanceAs (Decidable (s.rets.head? = some .eof))

/-- One action. The caller stops at `CI_EOF`, and it does not read into a full buffer. -/
def sessionStep (s : Session) (a : Act) : Session :=
  if s.Ended then s
  else
    match a with
    | .read k =>
      let got := s.input.take (min k (netReadRoom s.req))
      match netDataRead s.req got with
      | none => s
      | some req => { s with req := req, input := s.input.drop got.length }
    | .parse =>
      let (ret, wdata, req) := parseChunkData s.req
      { s with
        req := { req with writeToModulePending := 0 }
        out := s.out ++ (wdata.getD []).take req.writeToModulePending
        rets := ret :: s.rets }

/-- A request at the beginning of a body. -/
def Reader.AtStart (r : Reader) : Prop :=
  r.pstrblockRead = [] ∧ r.currentChunkLen = r.chunkBytesRead ∧ r.writeToModulePending = 0

def Session.start (r : Reader) (input : List UInt8) : Session := { req := r, input := input }

/-! ## The invariant -/

/-- The session stands at the position `p` of the body `cs`, closed by `t`, that it was started
on with the request `r₀`. -/
structure SessionAt (r₀ : Reader) (cs : List Chunk) (t : LastChunk) (s : Session) (p : Pos) :
    Prop where
  at_pos : s.req.At p
  stream : s.req.pstrblockRead ++ s.input = p.bytes t.enc
  out : body cs = s.out ++ p.left
  chunks : ∀ c ∈ p.chunks, ChunkFits c
  pending : s.req.writeToModulePending = 0
  counted : s.req.bodyBytesIn = r₀.bodyBytesIn + s.out.length
  no_error : ∀ ret ∈ s.rets, ret ≠ .error ∧ ret ≠ .wild
  ended : s.Ended ↔ p = .finished
  mark : p = .finished → s.req.eofReceived = (t.mark r₀).eofReceived ∧
    s.req.i206UseOriginalBody = (t.mark r₀).i206UseOriginalBody
  no_mark : p ≠ .finished → s.req.eofReceived = r₀.eofReceived ∧
    s.req.i206UseOriginalBody = r₀.i206UseOriginalBody

section Session

variable {r₀ : Reader} {cs : List Chunk} {t : LastChunk}

theorem sessionAt_start (h₀ : r₀.AtStart) (hcs : ∀ c ∈ cs, ChunkFits c) :
    SessionAt r₀ cs t (.start r₀ (enc cs ++ t.enc)) (.line cs) where
  at_pos := h₀.2.1
  stream := by simp [Session.start, h₀.1, Pos.bytes]
  out := rfl
  chunks := hcs
  pending := h₀.2.2
  counted := rfl
  no_error := by simp [Session.start]
  ended := by simp [Session.start, Session.Ended]
  mark := by simp
  no_mark := fun _ => ⟨rfl, rfl⟩

theorem sessionAt_read {s : Session} {p : Pos} (h : SessionAt r₀ cs t s p) (k : Nat) :
    SessionAt r₀ cs t (sessionStep s (.read k)) p := by
  unfold sessionStep
  by_cases hend : s.Ended
  · rw [if_pos hend]; exact h
  rw [if_neg hend]
  simp only [netDataRead]
  by_cases hfull : bufSize ≤ s.req.pstrblockRead.length
  · rw [if_pos hfull]; exact h
  rw [if_neg hfull]
  set got := s.input.take (min k (netReadRoom s.req))
  have hsplit : got ++ s.input.drop got.length = s.input :=
    prefix_iff_eq_append.mp ( take_prefix _ _)
  exact
    { h with
      at_pos := by
        have := h.at_pos
        cases p <;> exact this
      stream := by
        simp only [append_assoc, hsplit]
        exact h.stream }

/-- A call moves the session on. It asks for more only when there are bytes to read and there
is room for them; when it returns `CI_OK` the buffer has become shorter. -/
theorem sessionAt_parse (ht : t.Fits) {s : Session} {p : Pos} (h : SessionAt r₀ cs t s p)
    (hend : ¬ s.Ended) :
    ∃ p' ret, SessionAt r₀ cs t (sessionStep s .parse) p' ∧
      (sessionStep s .parse).rets = ret :: s.rets ∧ (sessionStep s .parse).input = s.input ∧
      (ret = .needsMore → s.input ≠ [] ∧ 0 < netReadRoom (sessionStep s .parse).req) ∧
      (ret = .ok → (sessionStep s .parse).req.pstrblockRead.length
        < s.req.pstrblockRead.length) := by
  have hfin : p ≠ .finished := fun hp => hend (h.ended.mpr hp)
  obtain ⟨ret, w, r', p', hcall, hpend, hspec⟩ := parseChunkData_spec ht h.at_pos hfin
    h.chunks (h.stream.trans (append_nil _).symm) h.pending
  have hstep : sessionStep s .parse = { s with
      req := { r' with writeToModulePending := 0 }
      out := s.out ++ w.getD []
      rets := ret :: s.rets } := by
    unfold sessionStep
    rw [if_neg hend]
    simp only [hcall, hpend, take_length]
  rw [hstep]
  refine ⟨p', ret, ?_, rfl, rfl, fun hret => ?_, fun hret => (hspec.ok hret).1⟩
  · exact
      { at_pos := by
          have := hspec.moves.at_pos
          cases p' <;> exact this
        stream := by
          have := hspec.moves.stream
          rw [append_nil] at this
          exact this
        out := by
          rw [h.out, hspec.moves.left, append_assoc]
        chunks := fun c hc => h.chunks c (hspec.moves.chunks c hc)
        pending := rfl
        counted := by
          rw [hspec.moves.bodyBytesIn, h.counted, length_append, Nat.add_assoc]
        no_error := by
          intro x hx
          rcases mem_cons.mp hx with rfl | hx
          · exact hspec.no_error
          · exact h.no_error x hx
        ended := by
          show some ret = some ChunkRet.eof ↔ _
          rw [Option.some.injEq]
          exact hspec.eof_iff
        mark := fun hp' => by
          obtain ⟨h1, h2⟩ := hspec.mark hp'
          obtain ⟨h3, h4⟩ := h.no_mark hfin
          cases t with
          | plain => exact ⟨h1.trans h3, h2.trans h4⟩
          | ieof => exact ⟨h1, h2.trans h4⟩
          | useOriginalBody n => exact ⟨h1, h2⟩
        no_mark := fun hp' => by
          obtain ⟨h1, h2⟩ := hspec.no_mark hp'
          obtain ⟨h3, h4⟩ := h.no_mark hfin
          exact ⟨h1.trans h3, h2.trans h4⟩ }
  · obtain ⟨h1, h2⟩ := hspec.needsMore hret
    refine ⟨h1, ?_⟩
    show 0 < bufSize - r'.pstrblockRead.length
    omega

/-- The invariant holds after every list of actions. -/
theorem sessionAt_run (ht : t.Fits) {s : Session} {p : Pos} (h : SessionAt r₀ cs t s p)
    (acts : List Act) : ∃ p', SessionAt r₀ cs t (run sessionStep s acts) p' := by
  refine run_inv_all (P := fun s => ∃ p', SessionAt r₀ cs t s p') ?_ ⟨p, h⟩ acts
  rintro s a ⟨p, h⟩
  cases a with
  | read k => exact ⟨p, sessionAt_read h k⟩
  | parse =>
    by_cases hend : s.Ended
    · refine ⟨p, ?_⟩
      rw [sessionStep, if_pos hend]
      exact h
    · obtain ⟨p', ret, h', -⟩ := sessionAt_parse ht h hend
      exact ⟨p', h'⟩

/-- When everything has been read, calls alone bring the session to its end. -/
theorem session_ends (ht : t.Fits) :
    ∀ (n : Nat) {s : Session} {p : Pos}, SessionAt r₀ cs t s p → s.input = [] →
      s.req.pstrblockRead.length ≤ n →
      ∃ m, (run sessionStep s (replicate m .parse)).Ended := by
  intro n
  induction n with
  | zero =>
    intro s p h hin hn
    refine ⟨0, h.ended.mpr ?_⟩
    by_contra hp
    have hblk : s.req.pstrblockRead = [] := length_eq_zero_iff.mp (by omega)
    have hstream := h.stream
    rw [hblk, hin] at hstream
    exact p.bytes_ne_nil t.enc_ne_nil hp hstream.symm
  | succ n ih =>
    intro s p h hin hn
    by_cases hend : s.Ended
    · exact ⟨0, hend⟩
    obtain ⟨p', ret, h', hrets, hin', hmore, hok⟩ := sessionAt_parse ht h hend
    have hnerr := h'.no_error ret (by rw [hrets]; simp)
    cases hret : ret with
    | error => exact absurd hret hnerr.1
    | wild => exact absurd hret hnerr.2
    | needsMore => exact absurd hin (hmore hret).1
    | eof =>
      refine ⟨1, ?_⟩
      show (sessionStep s .parse).rets.head? = some .eof
      rw [hrets, hret]
      rfl
    | ok =>
      obtain ⟨m, hm⟩ := ih h' (hin'.trans hin) (by have := hok hret; omega)
      exact ⟨m + 1, hm⟩

/-- **The chunk parser delivers the body.** A body in any chunking is closed by a last chunk
with or without an extension and read through the buffer in any cutting, with calls of the
parser at any time. No call fails; what has been delivered is the front of the body and is
counted; a call that asks for more leaves room for a read; `CI_EOF` is returned exactly when
the last byte of the last chunk is consumed, and then the whole body has been delivered; when
all bytes have been read, further calls reach `CI_EOF`. An extension of the last chunk sets
`eof_received`, whichever it is, and the offset of `use-original-body` is recovered. -/
theorem session_delivers (hcs : ∀ c ∈ cs, ChunkFits c) (ht : t.Fits) (h₀ : r₀.AtStart)
    (acts : List Act) (s : Session)
    (hs : s = run sessionStep (.start r₀ (enc cs ++ t.enc)) acts) :
    (∀ ret ∈ s.rets, ret ≠ .error ∧ ret ≠ .wild) ∧
    (∃ todo, body cs = s.out ++ todo) ∧
    s.req.bodyBytesIn = r₀.bodyBytesIn + s.out.length ∧
    (¬ s.Ended → (sessionStep s .parse).rets.head? = some .needsMore →
      0 < netReadRoom (sessionStep s .parse).req) ∧
    (s.Ended ↔ s.req.pstrblockRead ++ s.input = []) ∧
    (s.Ended → s.out = body cs ∧ s.req.eofReceived = (r₀.eofReceived || decide (t ≠ .plain)) ∧
      s.req.i206UseOriginalBody =
        match t with
        | .useOriginalBody n => (n : Int)
        | _ => r₀.i206UseOriginalBody) ∧
    (¬ s.Ended → s.req.eofReceived = r₀.eofReceived ∧
      s.req.i206UseOriginalBody = r₀.i206UseOriginalBody) ∧
    (s.input = [] → ∃ m, (run sessionStep s (replicate m .parse)).Ended) := by
  obtain ⟨p, h⟩ := sessionAt_run ht (sessionAt_start h₀ hcs) acts
  rw [← hs] at h
  refine ⟨h.no_error, ⟨_, h.out⟩, h.counted, ?_, ?_, ?_, ?_, ?_⟩
  · intro hend hret
    obtain ⟨p', ret, -, hrets, -, hmore, -⟩ := sessionAt_parse ht h hend
    rw [hrets, head?_cons, Option.some.injEq] at hret
    exact (hmore hret).2
  · rw [h.ended, h.stream]
    constructor
    · rintro rfl; rfl
    · intro hnil
      by_contra hp
      exact p.bytes_ne_nil t.enc_ne_nil hp hnil
  · intro hend
    obtain rfl := h.ended.mp hend
    obtain ⟨h1, h2⟩ := h.mark rfl
    refine ⟨?_, ?_, ?_⟩
    · rw [h.out]; simp [Pos.left]
    · rw [h1]
      cases t <;> simp [LastChunk.mark]
    · rw [h2]
      cases t <;> rfl
  · intro hend
    exact h.no_mark (fun hp => hend (h.ended.mpr hp))
  · intro hin
    exact session_ends ht _ h hin le_rfl

end Session

/-- The body `hi` in one chunk, cut behind the third byte. -/
theorem session_delivers_hi :
    let s := run sessionStep
      (.start {} (enc [Chunk.ofData (bytes "hi") (by decide)] ++ LastChunk.ieof.enc))
      [.read 4, .parse, .read 100, .parse]
    s.Ended ∧ s.out = bytes "hi" ∧ s.req.eofReceived = true ∧ s.req.bodyBytesIn = 2 := by
  intro s
  have hfit : ∀ c ∈ [Chunk.ofData (bytes "hi") (by decide)], ChunkFits c := by
    intro c hc
    obtain rfl := mem_singleton.mp hc
    exact ⟨by decide, by decide⟩
  have h := @session_delivers {} _ .ieof hfit trivial ⟨rfl, rfl, rfl⟩
    [.read 4, .parse, .read 100, .parse] s rfl
  have hend : s.Ended := by decide
  obtain ⟨-, -, hcount, -, -, hfull, -⟩ := h
  obtain ⟨hout, heof, -⟩ := hfull hend
  refine ⟨hend, hout, heof, ?_⟩
  rfl

/-- A last chunk with `use-original-body` sets `eof_received` too. -/
theorem session_useOriginalBody_sets_eof :
    let s := run sessionStep (.start {} (LastChunk.useOriginalBody 5).enc) [.read 100, .parse]
    s.Ended ∧ s.req.i206UseOriginalBody = 5 ∧
      ¬ (s.req.eofReceived = true ↔ LastChunk.useOriginalBody 5 = LastChunk.ieof) := by
  decide

end CIcap
