import CIcap.Codec.Uncompress

/-! # What the decoders pass on

`Delivers maxSize stream d` says that the calls of `writefunc` together pass the decoded stream up
to `max_size`, each of them bytes that the library has written. `decode_delivers` reduces this to
single rounds: a round has to pass what `max_size` leaves of its block, and may only end the loop if
nothing more would be passed.

zlib and bzip2 fill their output buffers up to the last block, which is what ends the loops over
them. brotli has to be given buffers of the size of its own, and zstd takes twice the size of a
block from `max_size`.
-/

namespace CIcap

open List

section Delivers

variable {σ τ : Type}

/-- What is passed of a stream when `unzipped` bytes have been passed before. -/
def remaining (maxSize unzipped : Int) (stream : List UInt8) : List UInt8 :=
  if 0 < maxSize then stream.take (maxSize - unzipped).toNat else stream

def decodedStream (rounds : List (Round σ)) : List UInt8 := (rounds.map Round.out).flatten

def Pass.bytes (p : Pass) : List UInt8 := p.data.take p.len

def passedBytes (passes : List Pass) : List UInt8 := (passes.map Pass.bytes).flatten

/-- A call of `writefunc` stays within the block, and so within the buffer. -/
def Pass.Inside (p : Pass) : Prop := p.len ≤ p.data.length ∧ p.len ≤ p.room

/-- The decoder returns, has passed the stream up to `max_size` and no bytes besides it. -/
structure Decoded.Delivers (d : Decoded σ) (maxSize unzipped : Int) (stream : List UInt8) : Prop where
  returns : d.code ≠ none
  bytes : passedBytes d.passes = remaining maxSize unzipped stream
  inside : ∀ p ∈ d.passes, p.Inside

@[simp] theorem decodedStream_nil : decodedStream ([] : List (Round σ)) = [] := rfl

@[simp] theorem decodedStream_cons (r : Round σ) (rounds : List (Round σ)) :
    decodedStream (r :: rounds) = r.out ++ decodedStream rounds := rfl

@[simp] theorem passedBytes_nil : passedBytes [] = [] := rfl

theorem passedBytes_append (ps qs : List Pass) :
    passedBytes (ps ++ qs) = passedBytes ps ++ passedBytes qs := by
  simp [passedBytes]

variable {maxSize unzipped : Int}

/-- A block that is within `max_size` is passed before the rest. -/
theorem remaining_append {block : List UInt8}
    (h : 0 < maxSize → unzipped + block.length ≤ maxSize) (rest : List UInt8) :
    remaining maxSize unzipped (block ++ rest) =
      block ++ remaining maxSize (unzipped + block.length) rest := by
  unfold remaining
  split_ifs with hmax
  · rw [take_append, take_of_length_le (by omega)]
    congr 2
    omega
  · rfl

theorem remaining_of_within {block : List UInt8}
    (h : 0 < maxSize → unzipped + block.length ≤ maxSize) :
    remaining maxSize unzipped block = block := by
  have hwhole := remaining_append h []
  rw [append_nil] at hwhole
  rw [hwhole]
  simp [remaining]

/-- A round passes what `max_size` leaves of its block; `rest` is what the library writes in later
rounds. It ends the loop only where nothing of this would be passed. -/
structure Turn.Good (t : Turn τ) (maxSize unzipped : Int) (block rest : List UInt8)
    (next : τ → Prop) : Prop where
  bytes : passedBytes t.pass.toList = remaining maxSize unzipped block
  inside : ∀ p ∈ t.pass.toList, p.Inside
  stops : ∀ code, t.next = .inl code →
    remaining maxSize unzipped (block ++ rest) = remaining maxSize unzipped block
  goes : ∀ s, t.next = .inr s →
    next s ∧ (0 < maxSize → unzipped + block.length ≤ maxSize)

/-- **The rule for decoders.** `P` holds of the state and the rounds that are left, and `n` is the
number of bytes that have been passed. -/
theorem decode_delivers {turn : τ → Round σ → Turn τ} {idle : τ → Round σ}
    {n : τ → Int} {P : τ → List (Round σ) → Prop}
    (hturn : ∀ s r rounds, P s (r :: rounds) →
      (turn s r).Good maxSize (n s) r.out (decodedStream rounds) fun s' =>
        P s' rounds ∧ n s' = n s + r.out.length)
    (hidle : ∀ s, P s [] → (∃ code, (turn s (idle s)).next = .inl code) ∧
      (turn s (idle s)).Good maxSize (n s) [] [] fun _ => True)
    {rounds : List (Round σ)} {s : τ} (h : P s rounds) :
    (decode turn idle s rounds).Delivers maxSize (n s) (decodedStream rounds) := by
  induction rounds generalizing s with
  | nil =>
    obtain ⟨⟨code, hcode⟩, hgood⟩ := hidle s h
    refine ⟨?_, hgood.bytes, hgood.inside⟩
    rw [decode, hcode]
    simp
  | cons r rounds ih =>
    have hgood := hturn s r rounds h
    cases hnext : (turn s r).next with
    | inl code =>
      refine ⟨?_, ?_, ?_⟩ <;> rw [decode, hnext]
      · simp
      · dsimp only
        rw [append_nil, hgood.bytes, decodedStream_cons, hgood.stops code hnext]
      · dsimp only
        rw [append_nil]
        exact hgood.inside
    | inr s' =>
      obtain ⟨⟨hP, hn⟩, hle⟩ := hgood.goes s' hnext
      have hrest := ih hP
      refine ⟨?_, ?_, ?_⟩ <;> rw [decode, hnext]
      · exact hrest.returns
      · rw [passedBytes_append, hgood.bytes, hrest.bytes, remaining_of_within hle, decodedStream_cons,
          remaining_append hle, hn]
      · intro p hp
        rcases mem_append.mp hp with hmem | hmem
        · exact hgood.inside p hmem
        · exact hrest.inside p hmem

variable {r : Round σ}

/-- `passOn` cuts a block that exceeds `max_size` and returns, or passes the block whole. -/
theorem passOn_cases {inlen : Nat} (go : Int → Uncomp ⊕ τ)
    (hunzipped : 0 < maxSize → unzipped ≤ maxSize) (haccepts : r.accepts = true) :
    (∃ n code, 0 < maxSize ∧ n = (maxSize - unzipped).toNat ∧ n < r.out.length ∧ code ≠ .ok ∧
      passOn maxSize inlen unzipped r.out.length r go =
        { made := true, pass := some ⟨r.out, r.outbuf.getD 0, n, true⟩, next := .inl code }) ∨
    (0 < maxSize → unzipped + r.out.length ≤ maxSize) ∧
      passOn maxSize inlen unzipped r.out.length r go =
        { made := true
          pass := some ⟨r.out, r.outbuf.getD 0, r.out.length, true⟩
          next := go (unzipped + r.out.length) } := by
  unfold passOn
  dsimp only
  rw [haccepts]
  by_cases hcut : 0 < maxSize ∧ maxSize - unzipped < r.out.length
  · have hwrite : canWrite maxSize unzipped r.out.length = (maxSize - unzipped).toNat := if_pos hcut
    have hlt : (maxSize - unzipped).toNat < r.out.length := by omega
    rw [hwrite, if_pos hlt]
    refine .inl ⟨_, _, hcut.1, rfl, hlt, ?_, rfl⟩
    unfold tooBig
    split_ifs <;> simp
  · have hwrite : canWrite maxSize unzipped r.out.length = r.out.length := if_neg hcut
    rw [hwrite, if_neg (lt_irrefl _)]
    refine .inr ⟨fun hmax => ?_, rfl⟩
    by_contra hgt
    exact hcut ⟨hmax, by omega⟩

variable {go : Int → Uncomp ⊕ τ}

/-- A round that passes its block with `passOn`. -/
theorem passOn_good {inlen : Nat}
    {rest : List UInt8} {next : τ → Prop} (hunzipped : 0 < maxSize → unzipped ≤ maxSize)
    (haccepts : r.accepts = true) (hgo : (0 < maxSize → unzipped + r.out.length ≤ maxSize) →
      (∃ code, go (unzipped + r.out.length) = .inl code ∧ rest = []) ∨
        ∃ s, go (unzipped + r.out.length) = .inr s ∧ next s) :
    (passOn maxSize inlen unzipped r.out.length r go).Good maxSize unzipped r.out rest next := by
  rcases passOn_cases go hunzipped haccepts with ⟨n, code, hmax, rfl, hlt, -, heq⟩ | ⟨hwithin, heq⟩
  · -- the block is cut, and the decoder returns
    rw [heq]
    refine ⟨?_, ?_, fun _ _ => ?_, nofun⟩
    · rw [remaining, if_pos hmax]
      simp [passedBytes, Pass.bytes]
    · intro p hp
      obtain rfl : p = _ := by simpa using hp
      exact ⟨hlt.le, hlt.le.trans r.fits⟩
    · rw [remaining, remaining, if_pos hmax, if_pos hmax, take_append_of_le_length hlt.le]
  · rw [heq]
    refine ⟨?_, ?_, ?_, ?_⟩
    · rw [remaining_of_within hwithin]
      simp [passedBytes, Pass.bytes]
    · intro p hp
      obtain rfl : p = _ := by simpa using hp
      exact ⟨le_rfl, r.fits⟩
    · intro code hcode
      rcases hgo hwithin with ⟨-, -, rfl⟩ | ⟨s, hs, -⟩
      · rw [append_nil]
      · cases hcode.symm.trans hs
    · intro s hs
      rcases hgo hwithin with ⟨code, hcode, -⟩ | ⟨s', hs', hnext⟩
      · cases hs.symm.trans hcode
      · cases hs.symm.trans hs'
        exact ⟨hnext, hwithin⟩

theorem passOn_returns {inlen have_ : Nat} (hgo : ∀ n, ∃ code, go n = .inl code) :
    ∃ code, (passOn maxSize inlen unzipped have_ r go).next = .inl code := by
  unfold passOn
  dsimp only
  split_ifs
  · exact ⟨_, rfl⟩
  · exact ⟨_, rfl⟩
  · exact hgo _

/-- A round with an output buffer and a `writefunc` that takes what it is given. -/
def Round.Served (r : Round σ) : Prop := r.accepts = true ∧ 0 < r.outbuf.getD 0

/-- The block fills the output buffer. -/
def Round.Full (r : Round σ) : Prop := r.out.length = r.outbuf.getD 0

end Delivers

/-! ## zlib -/

/-- The statuses with which `inflate` goes on. -/
def ZStatus.works : ZStatus → Bool
  | .ok => true
  | .streamEnd => true
  | .bufError => true
  | _ => false

/-- `inflate` decodes the input without an error. It stops when the output buffer is full, at the end
of the stream or of the input. -/
structure InflateRounds (rounds : List (Round ZStatus)) : Prop where
  served : ∀ r ∈ rounds, r.Served
  works : ∀ r ∈ rounds, r.status.works = true
  fills : rounds.IsChain fun r _ => r.Full

/-- The rounds before `inflate` decodes the input: none, or one that finds no header. -/
def InflateRetry (first : List (Round ZStatus)) : Prop :=
  first = [] ∨ ∃ r, first = [r] ∧ 0 < r.outbuf.getD 0 ∧
    (r.status = .needDict true ∨ r.status = .dataError true)

variable {maxSize : Int} {inlen : Nat}

theorem inflateTurn_of_works {s : InflateState} {r : Round ZStatus}
    (hbuf : 0 < r.outbuf.getD 0) (hworks : r.status.works = true) :
    inflateTurn maxSize inlen s r = passOn maxSize inlen s.unzipped r.out.length r fun unzipped =>
        if r.out.length = r.outbuf.getD 0 then
          .inr { retriable := false, unzipped := unzipped, ended := r.status = .streamEnd }
        else .inl (if r.status = .streamEnd then .ok else .errCorrupt) := by
  unfold inflateTurn
  rw [if_neg (by omega)]
  obtain ⟨outbuf, out, availIn, status, accepts, fits⟩ := r
  cases status <;> first | rfl | exact absurd hworks (by simp [ZStatus.works])

theorem InflateRounds.tail {r : Round ZStatus} {rounds : List (Round ZStatus)}
    (h : InflateRounds (r :: rounds)) : InflateRounds rounds where
  served := (forall_mem_cons.mp h.served).2
  works := (forall_mem_cons.mp h.works).2
  fills := h.fills.tail

theorem decodedStream_of_not_full {σ : Type} {r : Round σ} {rounds : List (Round σ)}
    (h : (r :: rounds).IsChain fun r _ => r.Full) (hr : ¬ r.Full) : decodedStream rounds = [] := by
  cases rounds with
  | nil => rfl
  | cons r' rounds => exact absurd (isChain_cons_cons.mp h).1 hr

theorem inflate_delivers {rounds : List (Round ZStatus)}
    (h : InflateRounds rounds) {s : InflateState} (hs : s.unzipped = 0) :
    (decode (inflateTurn maxSize inlen) inflateIdle s rounds).Delivers maxSize 0
      (decodedStream rounds) := by
  rw [← hs]
  refine decode_delivers (n := InflateState.unzipped)
    (P := fun s rounds => InflateRounds rounds ∧ (0 < maxSize → s.unzipped ≤ maxSize))
    ?_ ?_ ⟨h, fun hmax => by omega⟩
  · rintro s r rounds ⟨hrounds, hle⟩
    have hserved := hrounds.served r mem_cons_self
    rw [inflateTurn_of_works hserved.2 (hrounds.works r mem_cons_self)]
    refine passOn_good hle hserved.1 fun hwithin => ?_
    split_ifs with hfull
    · exact .inr ⟨_, rfl, ⟨hrounds.tail, hwithin⟩, rfl⟩
    all_goals exact .inl ⟨_, rfl, decodedStream_of_not_full hrounds.fills hfull⟩
  · -- behind the last round there is no output, so the loop ends
    rintro s ⟨-, hle⟩
    have hworks : (inflateIdle s).status.works = true := by
      unfold inflateIdle
      split_ifs <;> rfl
    rw [inflateTurn_of_works (by simp [inflateIdle, chunkSize]) hworks]
    exact ⟨passOn_returns fun n => ⟨_, if_neg (by simp [inflateIdle, chunkSize])⟩,
      passOn_good (r := inflateIdle s) hle rfl fun _ =>
        .inl ⟨_, if_neg (by simp [inflateIdle, chunkSize]), rfl⟩⟩

/-! ## bzip2 -/

/-- The statuses with which `BZ2_bzDecompress` goes on. -/
def BzStatus.works : BzStatus → Bool
  | .ok => true
  | .streamEnd => true
  | .sequenceError => true
  | _ => false

/-- `BZ2_bzDecompress` decodes the input without an error, and fills its buffers as `inflate`
does. -/
structure BzunzipRounds (rounds : List (Round BzStatus)) : Prop where
  served : ∀ r ∈ rounds, r.Served
  works : ∀ r ∈ rounds, r.status.works = true
  fills : rounds.IsChain fun r _ => r.Full

theorem BzunzipRounds.tail {r : Round BzStatus} {rounds : List (Round BzStatus)}
    (h : BzunzipRounds (r :: rounds)) : BzunzipRounds rounds where
  served := (forall_mem_cons.mp h.served).2
  works := (forall_mem_cons.mp h.works).2
  fills := h.fills.tail

theorem bzunzipTurn_of_works {s : BzState} {r : Round BzStatus}
    (hbuf : 0 < r.outbuf.getD 0) (hworks : r.status.works = true) :
    bzunzipTurn maxSize inlen s r =
      if r.out.length = 0 then .stop true .errOutput
      else passOn maxSize inlen s.unzipped r.out.length r fun unzipped =>
        if r.out.length = r.outbuf.getD 0 then
          .inr { unzipped := unzipped, ended := r.status = .streamEnd }
        else .inl .ok := by
  unfold bzunzipTurn
  rw [if_neg (by omega)]
  obtain ⟨outbuf, out, availIn, status, accepts, fits⟩ := r
  cases status <;> first | rfl | exact absurd hworks (by simp [BzStatus.works])

theorem stop_good {τ : Type} {unzipped : Int} {code : Uncomp} {made : Bool}
    {next : τ → Prop} : (Turn.stop made code : Turn τ).Good maxSize unzipped [] [] next where
  bytes := by simp [Turn.stop, remaining]
  inside := nofun
  stops := fun _ _ => rfl
  goes := nofun

theorem bzunzip_delivers {rounds : List (Round BzStatus)} (h : BzunzipRounds rounds) :
    (memBzunzip maxSize inlen rounds).Delivers maxSize 0 (decodedStream rounds) := by
  refine decode_delivers (n := BzState.unzipped)
    (P := fun s rounds => BzunzipRounds rounds ∧ (0 < maxSize → s.unzipped ≤ maxSize))
    ?_ ?_ ⟨h, fun hmax => hmax.le⟩
  · rintro s r rounds ⟨hrounds, hle⟩
    have hserved := hrounds.served r mem_cons_self
    rw [bzunzipTurn_of_works hserved.2 (hrounds.works r mem_cons_self)]
    by_cases hempty : r.out.length = 0
    · -- the buffer is not full, so this is the last round
      have hrest : decodedStream rounds = [] := by
        refine decodedStream_of_not_full hrounds.fills fun hfull => ?_
        have hbuf := hserved.2
        rw [Round.Full] at hfull
        omega
      rw [length_eq_zero_iff.mp hempty, hrest]
      exact stop_good
    · rw [if_neg hempty]
      refine passOn_good hle hserved.1 fun hwithin => ?_
      split_ifs with hfull
      · exact .inr ⟨_, rfl, ⟨hrounds.tail, hwithin⟩, rfl⟩
      · exact .inl ⟨_, rfl, decodedStream_of_not_full hrounds.fills hfull⟩
  · rintro s -
    have hworks : (bzunzipIdle s).status.works = true := by
      unfold bzunzipIdle
      split_ifs <;> rfl
    rw [bzunzipTurn_of_works (by simp [bzunzipIdle, chunkSize]) hworks]
    exact ⟨⟨_, rfl⟩, stop_good⟩

/-! ## brotli -/

/-- The decoder asks for more output, or for input that there is. -/
def Round.Continues (r : Round BrStatus) : Prop :=
  r.status = .needsMoreOutput ∨ (r.status = .needsMoreInput ∧ r.availIn ≠ 0)

/-- The decoder goes on up to its last round, and its buffers have the size of its own. -/
structure BrRounds (rounds : List (Round BrStatus)) : Prop where
  accepts : ∀ r ∈ rounds, r.accepts = true
  sized : ∀ r ∈ rounds, r.outbuf = some fileBufferSize
  continues : rounds.IsChain fun r _ => r.Continues

theorem brTurn_of_sized {outsize : Int} {r : Round BrStatus}
    (hsized : r.outbuf = some fileBufferSize) :
    brTurn maxSize inlen outsize r = passOn maxSize inlen outsize r.out.length r (brNext r) := by
  have hfits := r.fits
  rw [hsized, Option.getD_some] at hfits
  have hhave : (((fileBufferSize : Int) - (fileBufferSize - r.out.length : Nat)) % 2 ^ 32).toNat =
      r.out.length := by
    have hsize : fileBufferSize = 16384 := rfl
    omega
  unfold brTurn
  rw [hsized]
  dsimp only
  rw [hhave]

theorem brotli_delivers {rounds : List (Round BrStatus)} (h : BrRounds rounds) :
    (brDecompress maxSize inlen rounds).Delivers maxSize 0 (decodedStream rounds) := by
  refine decode_delivers (n := id)
    (P := fun outsize rounds => BrRounds rounds ∧ (0 < maxSize → outsize ≤ maxSize))
    ?_ ?_ ⟨h, fun hmax => hmax.le⟩
  · rintro outsize r rounds ⟨hrounds, hle⟩
    rw [brTurn_of_sized (hrounds.sized r mem_cons_self)]
    refine passOn_good hle (hrounds.accepts r mem_cons_self) fun hwithin => ?_
    cases hnext : brNext r (outsize + r.out.length) with
    | inl code =>
      refine .inl ⟨code, rfl, ?_⟩
      cases rounds with
      | nil => rfl
      | cons r' rounds =>
        -- the decoder returns in its last round only
        rcases (isChain_cons_cons.mp hrounds.continues).1 with hmore | ⟨hmore, havail⟩
        · simp [brNext, hmore] at hnext
        · simp [brNext, hmore, havail] at hnext
    | inr outsize' =>
      have heq : outsize' = outsize + r.out.length := by
        unfold brNext at hnext
        split at hnext
        · split_ifs at hnext
          exact (Sum.inr.inj hnext).symm
        · exact (Sum.inr.inj hnext).symm
        · split_ifs at hnext
        · cases hnext
      refine .inr ⟨outsize', rfl, ⟨⟨?_, ?_, hrounds.continues.tail⟩, heq ▸ hwithin⟩, heq⟩
      · exact (forall_mem_cons.mp hrounds.accepts).2
      · exact (forall_mem_cons.mp hrounds.sized).2
  · rintro outsize ⟨-, hle⟩
    exact ⟨passOn_returns fun _ => ⟨.errCorrupt, rfl⟩,
      passOn_good (r := brIdle) hle rfl fun _ => .inl ⟨.errCorrupt, rfl, rfl⟩⟩

/-! ## zstd -/

/-- Under `max_size` there is room for every block twice, but for one that just fills it. -/
def RoomTwice (maxSize : Int) : Int → List (Round ZstdStatus) → Prop
  | _, [] => True
  | unzipped, r :: rounds =>
    (0 < maxSize → unzipped + r.out.length = maxSize ∨
      unzipped + 2 * r.out.length ≤ maxSize) ∧
    RoomTwice maxSize (unzipped + r.out.length) rounds

/-- `ZSTD_decompressStream` decodes the input without an error and needs all rounds but the last to
read it. -/
structure ZstdRounds (rounds : List (Round ZstdStatus)) : Prop where
  accepts : ∀ r ∈ rounds, r.accepts = true
  works : ∀ r ∈ rounds, r.status ≠ .error
  reads : rounds.IsChain fun r _ => r.availIn ≠ 0

variable {r : Round ZstdStatus} {rounds : List (Round ZstdStatus)}

theorem ZstdRounds.tail (h : ZstdRounds (r :: rounds)) : ZstdRounds rounds where
  accepts := (forall_mem_cons.mp h.accepts).2
  works := (forall_mem_cons.mp h.works).2
  reads := h.reads.tail

theorem zstdTurn_good {unzipped : Int}
    {rest : List UInt8} {next : Int → Prop} (haccepts : r.accepts = true)
    (hworks : r.status ≠ .error) (hroom : 0 < maxSize → unzipped + r.out.length = maxSize ∨
      unzipped + 2 * r.out.length ≤ maxSize) (hstops : r.availIn = 0 → rest = [])
    (hgoes : (0 < maxSize → unzipped + r.out.length ≤ maxSize) → next (unzipped + r.out.length)) :
    (zstdTurn maxSize inlen unzipped r).Good maxSize unzipped r.out rest next := by
  have hwithin : 0 < maxSize → unzipped + r.out.length ≤ maxSize := by
    intro hmax
    rcases hroom hmax with h | h <;> omega
  have hwhole : zstdCanWrite maxSize (unzipped + r.out.length) r.out.length = r.out.length := by
    unfold zstdCanWrite
    by_cases hmax : 0 < maxSize
    · rw [if_neg]
      rintro ⟨hne, hlt⟩
      rcases hroom hmax with h | h <;> omega
    · rw [if_neg hmax, if_neg (by simp)]
  obtain ⟨n, hn⟩ : ∃ n, r.status = .hint n := by
    cases hstatus : r.status with
    | error => exact absurd hstatus hworks
    | hint n => exact ⟨n, rfl⟩
  unfold zstdTurn
  rw [hn]
  dsimp only
  rw [hwhole, if_neg (by simp [haccepts]), if_neg (by rintro ⟨hmax, hgt⟩; have := hwithin hmax; omega)]
  refine ⟨?_, ?_, ?_, ?_⟩
  · rw [remaining_of_within hwithin]
    simp [passedBytes, Pass.bytes]
  · intro p hp
    obtain rfl : p = _ := by simpa using hp
    exact ⟨le_rfl, r.fits⟩
  · intro code hcode
    split_ifs at hcode with havail
    rw [hstops havail, append_nil]
  · intro s hs
    split_ifs at hs
    obtain rfl := Sum.inr.inj hs
    exact ⟨hgoes hwithin, hwithin⟩

theorem zstd_delivers (h : ZstdRounds rounds) (hroom : RoomTwice maxSize 0 rounds)
    (hinlen : inlen = 0 → rounds = []) :
    (memZstdUncompress maxSize inlen rounds).Delivers maxSize 0 (decodedStream rounds) := by
  unfold memZstdUncompress
  by_cases hzero : inlen = 0
  · rw [if_pos hzero, hinlen hzero]
    refine ⟨by simp, by simp [remaining], nofun⟩
  rw [if_neg hzero]
  refine decode_delivers (n := id)
    (P := fun unzipped rounds => ZstdRounds rounds ∧ RoomTwice maxSize unzipped rounds)
    ?_ ?_ ⟨h, hroom⟩
  · rintro unzipped r rounds ⟨hrounds, hfirst, hrest⟩
    refine zstdTurn_good (hrounds.accepts r mem_cons_self)
      (hrounds.works r mem_cons_self) hfirst ?_ fun _ => ⟨⟨hrounds.tail, hrest⟩, rfl⟩
    intro havail
    cases rounds with
    | nil => rfl
    | cons r' rounds => exact absurd havail (isChain_cons_cons.mp hrounds.reads).1
  · rintro unzipped -
    exact ⟨⟨_, rfl⟩, stop_good⟩

/-! ## All decoders -/

/-- Every decoder passes the decoded stream up to `max_size` and nothing besides it, where its
library works as documented and `writefunc` takes what it is given; brotli if the buffers have the
size of its own, zstd if there is room for every block twice and the library does not use up the
input before its last block. -/
theorem decoders_deliver (maxSize : Int) (inlen : Nat) :
    (∀ first rounds, InflateRetry first → InflateRounds rounds →
      (memInflate maxSize inlen (first ++ rounds)).Delivers maxSize 0 (decodedStream rounds)) ∧
    (∀ rounds, BzunzipRounds rounds →
      (memBzunzip maxSize inlen rounds).Delivers maxSize 0 (decodedStream rounds)) ∧
    (∀ rounds, BrRounds rounds →
      (brDecompress maxSize inlen rounds).Delivers maxSize 0 (decodedStream rounds)) ∧
    (∀ rounds, ZstdRounds rounds → RoomTwice maxSize 0 rounds → (inlen = 0 → rounds = []) →
      (memZstdUncompress maxSize inlen rounds).Delivers maxSize 0 (decodedStream rounds)) := by
  refine ⟨?_, fun _ => bzunzip_delivers, fun _ => brotli_delivers, fun _ => zstd_delivers⟩
  rintro first rounds (rfl | ⟨r, rfl, hbuf, hstatus⟩) hrounds
  · exact inflate_delivers hrounds rfl
  · -- the first call is made again
    have hturn : inflateTurn maxSize inlen { retriable := true, unzipped := 0, ended := false } r =
        { made := false, pass := none,
          next := .inr { retriable := false, unzipped := 0, ended := false } } := by
      unfold inflateTurn
      rw [if_neg (by omega)]
      rcases hstatus with hstatus | hstatus <;> rw [hstatus] <;> rfl
    rw [singleton_append, memInflate, decode, hturn]
    exact inflate_delivers hrounds rfl

/-- A stream of four bytes, of which the first three decoders pass three. -/
theorem decoders_deliver_four :
    (memInflate 3 10 [⟨some 8192, [1, 2, 3, 4], 0, .streamEnd, true, by decide⟩]).Delivers 3 0
      [1, 2, 3, 4] ∧
    (memBzunzip 3 10 [⟨some 8192, [1, 2, 3, 4], 0, .streamEnd, true, by decide⟩]).Delivers 3 0
      [1, 2, 3, 4] ∧
    (brDecompress 3 10 [⟨some 16384, [1, 2, 3, 4], 0, .success, true, by decide⟩]).Delivers 3 0
      [1, 2, 3, 4] ∧
    (memZstdUncompress 8 10 [⟨some 131072, [1, 2, 3, 4], 0, .hint 0, true, by decide⟩]).Delivers 8 0
      [1, 2, 3, 4] := by
  obtain ⟨hz, hbz, hbr, -⟩ := decoders_deliver 3 10
  obtain ⟨-, -, -, hzstd⟩ := decoders_deliver 8 10
  refine ⟨hz [] _ (.inl rfl) ⟨?_, ?_, isChain_singleton _⟩,
    hbz _ ⟨?_, ?_, isChain_singleton _⟩, hbr _ ⟨?_, ?_, isChain_singleton _⟩,
    hzstd _ ⟨?_, ?_, isChain_singleton _⟩ ⟨fun _ => .inr (by decide), trivial⟩
      (fun h => absurd h (by decide))⟩
  all_goals
    intro r hr
    obtain rfl := mem_singleton.mp hr
    first | exact ⟨rfl, by decide⟩ | rfl | simp

/-- brotli passes more bytes than a buffer of 1024 bytes has. zstd passes two of eight bytes when
`max_size` is ten. -/
theorem decoders_deliver_fails :
    ¬ (brDecompress 0 10 [⟨some 1024, [1, 2, 3], 0, .success, true, by decide⟩]).Delivers 0 0
        [1, 2, 3] ∧
    ¬ (memZstdUncompress 10 10
        [⟨some 131072, [1, 2, 3, 4, 5, 6, 7, 8], 0, .hint 0, true, by decide⟩]).Delivers 10 0
        [1, 2, 3, 4, 5, 6, 7, 8] := by
  constructor
  · intro h
    have hinside := h.inside ⟨[1, 2, 3], 1024, 15363, true⟩ (by decide)
    exact absurd hinside.2 (by decide)
  · intro h
    exact absurd h.bytes (by decide)

end CIcap
