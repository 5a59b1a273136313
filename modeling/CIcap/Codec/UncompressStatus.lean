import CIcap.Codec.UncompressOutput

/-! # What the decoders report

`Reports d ended` says that a decoder returns `CI_UNCOMP_OK` exactly if the library has reported the
end of the stream and all that it has decoded was passed to `writefunc` and taken. As for the output
this is reduced to single rounds (`decode_reports`).

`ci_mem_bzunzip` does not look at the status of the library: it returns `CI_UNCOMP_OK` when a block
does not fill the buffer, and an error when the last block is empty. `ci_mem_zstd_uncompress` does
not look at it either, but at the input that is left.
-/

namespace CIcap

open List

section Reports

variable {σ τ : Type}

/-- The whole block was passed to `writefunc`, which has taken it. -/
def Pass.Whole (p : Pass) : Prop := p.len = p.data.length ∧ p.accepted = true

/-- All that was decoded in some rounds was taken. -/
def AllTaken (made : List (Round σ)) (passes : List Pass) : Prop :=
  (∀ p ∈ passes, p.Whole) ∧ (passes.map Pass.data).flatten = decodedStream made

/-- `CI_UNCOMP_OK` is returned iff the end of the stream was reported, before these rounds (`before`)
or in them, and every decoded byte was taken; and then `max_size` is not exceeded. -/
structure Decoded.Reports (d : Decoded σ) (ended : σ → Prop) (before : Prop)
    (maxSize unzipped : Int) : Prop where
  ok_iff : d.code = some .ok ↔
    (before ∨ ∃ r ∈ d.made, ended r.status) ∧ AllTaken d.made d.passes
  within : d.code = some .ok → 0 < maxSize → unzipped + (decodedStream d.made).length ≤ maxSize

def Round.wholePass (r : Round σ) : Pass :=
  { data := r.out, room := r.outbuf.getD 0, len := r.out.length, accepted := true }

variable {r : Round σ} {ended : σ → Prop} {before : Prop} {maxSize unzipped : Int}

theorem allTaken_cons {made : List (Round σ)} {passes : List Pass} :
    AllTaken (r :: made) (r.wholePass :: passes) ↔ AllTaken made passes := by
  unfold AllTaken
  rw [forall_mem_cons, map_cons, flatten_cons, decodedStream_cons]
  have hdata : r.wholePass.data = r.out := rfl
  rw [hdata, append_cancel_left_eq]
  exact ⟨fun h => ⟨h.1.2, h.2⟩, fun h => ⟨⟨⟨rfl, rfl⟩, h.1⟩, h.2⟩⟩

theorem allTaken_nil : AllTaken ([] : List (Round σ)) [] := ⟨by simp, rfl⟩

/-- What a round may do: return the right status, pass its block whole and go on, or make its call
again. -/
inductive Turn.Reports (t : Turn τ) (r : Round σ) (ended : σ → Prop) (before : Prop)
    (maxSize unzipped : Int) (count : τ → Int) (next : τ → Prop → Prop) : Prop where
  | ok (hmade : t.made = true) (hpass : t.pass = some r.wholePass) (hnext : t.next = .inl .ok)
      (hended : before ∨ ended r.status) (hle : 0 < maxSize → unzipped + r.out.length ≤ maxSize)
  | fails {e : Uncomp} (hnext : t.next = .inl e) (hcode : e ≠ .ok)
      (hwhy : ¬ ((before ∨ t.made = true ∧ ended r.status) ∧
        AllTaken (if t.made then [r] else []) t.pass.toList))
  | goes {s : τ} (hmade : t.made = true) (hpass : t.pass = some r.wholePass)
      (hnext : t.next = .inr s) (hcount : count s = unzipped + r.out.length)
      (hinv : next s (before ∨ ended r.status))
  | again {s : τ} (hmade : t.made = false) (hpass : t.pass = none) (hnext : t.next = .inr s)
      (hcount : count s = unzipped) (hinv : next s before)

theorem reports_of_fails {t : Turn τ} {code : Uncomp} (hcode : code ≠ .ok)
    (hwhy : ¬ ((before ∨ t.made = true ∧ ended r.status) ∧
      AllTaken (if t.made then [r] else []) t.pass.toList)) :
    ({ made := if t.made then [r] else [], passes := t.pass.toList, code := some code } :
      Decoded σ).Reports ended before maxSize unzipped := by
  have hne : some code ≠ some .ok := by simpa using hcode
  refine ⟨iff_of_false hne fun hall => hwhy ⟨?_, hall.2⟩, fun hok => absurd hok hne⟩
  refine hall.1.imp_right ?_
  rintro ⟨r', hr, he⟩
  split_ifs at hr with hmade
  · exact ⟨hmade, mem_singleton.mp hr ▸ he⟩
  · exact absurd hr not_mem_nil

/-- A round that ends the loop at the end of the stream. -/
theorem reports_of_ok
    (hended : before ∨ ended r.status) (hle : 0 < maxSize → unzipped + r.out.length ≤ maxSize) :
    ({ made := [r], passes := [r.wholePass], code := some .ok } : Decoded σ).Reports ended before
      maxSize unzipped := by
  refine ⟨iff_of_true rfl ⟨?_, allTaken_cons.mpr allTaken_nil⟩, fun _ hmax => ?_⟩
  · exact hended.imp_right fun he => ⟨r, mem_singleton_self r, he⟩
  · simpa using hle hmax

theorem Decoded.Reports.cons {d : Decoded σ}
    (h : d.Reports ended (before ∨ ended r.status) maxSize (unzipped + r.out.length)) :
    ({ made := r :: d.made, passes := r.wholePass :: d.passes, code := d.code } :
      Decoded σ).Reports ended before maxSize unzipped where
  ok_iff := by
    rw [h.ok_iff, allTaken_cons, exists_mem_cons_iff, or_assoc]
  within := by
    intro hok hmax
    have hle := h.within hok hmax
    rw [decodedStream_cons, length_append]
    omega

/-- **The rule for decoders.** `P` holds of the state, the rounds that are left and of whether the
end of the stream was reported before them; `n` is the number of bytes passed before. -/
theorem decode_reports {turn : τ → Round σ → Turn τ} {idle : τ → Round σ}
    {n : τ → Int} {P : τ → List (Round σ) → Prop → Prop}
    (hturn : ∀ s r rounds before, P s (r :: rounds) before →
      (turn s r).Reports r ended before maxSize (n s) n fun s' before' => P s' rounds before')
    (hidle : ∀ s before, P s [] before →
      (turn s (idle s)).Reports (idle s) ended before maxSize (n s) n fun _ _ => False)
    {rounds : List (Round σ)} {s : τ} (h : P s rounds before) :
    (decode turn idle s rounds).Reports ended before maxSize (n s) := by
  induction rounds generalizing s before with
  | nil =>
    cases hidle s before h with
    | ok hmade hpass hnext hended hle =>
      rw [decode, hmade, hpass, hnext]
      exact reports_of_ok hended hle
    | fails hnext hcode hwhy =>
      rw [decode, hnext]
      exact reports_of_fails hcode hwhy
    | goes _ _ _ _ hinv | again _ _ _ _ hinv => exact hinv.elim
  | cons r rounds ih =>
    cases hturn s r rounds before h with
    | ok hmade hpass hnext hended hle =>
      rw [decode, hmade, hpass, hnext]
      exact reports_of_ok hended hle
    | fails hnext hcode hwhy =>
      rw [decode, hnext]
      rw [append_nil, append_nil]
      exact reports_of_fails hcode hwhy
    | goes hmade hpass hnext hcount hinv =>
      have hrest := ih hinv
      rw [hcount] at hrest
      rw [decode, hmade, hpass, hnext]
      exact hrest.cons
    | again hmade hpass hnext hcount hinv =>
      have hrest := ih hinv
      rw [hcount] at hrest
      rw [decode, hmade, hpass, hnext]
      exact hrest

/-- A block that is passed with `passOn` is passed whole, or the decoder returns an error. -/
theorem passOn_reports {inlen : Nat} {go : Int → Uncomp ⊕ τ}
    {count : τ → Int} {next : τ → Prop → Prop}
    (hunzipped : 0 < maxSize → unzipped ≤ maxSize)
    (hgo : (0 < maxSize → unzipped + r.out.length ≤ maxSize) →
      (go (unzipped + r.out.length) = .inl .ok ∧ (before ∨ ended r.status)) ∨
      (∃ code, go (unzipped + r.out.length) = .inl code ∧ code ≠ .ok ∧
        ¬ (before ∨ ended r.status)) ∨
      ∃ s, go (unzipped + r.out.length) = .inr s ∧ count s = unzipped + r.out.length ∧
        next s (before ∨ ended r.status)) :
    (passOn maxSize inlen unzipped r.out.length r go).Reports r ended before maxSize unzipped count
      next := by
  by_cases haccepts : r.accepts = true
  swap
  · refine .fails (e := .errOutput) ?_ (by simp) ?_
    · unfold passOn
      dsimp only
      rw [if_pos (by simpa using haccepts)]
    · rintro ⟨-, hall, -⟩
      exact haccepts (hall _ (Option.mem_toList.mpr rfl)).2
  rcases passOn_cases go hunzipped haccepts with ⟨n, code, -, -, hlt, hcode, heq⟩ | ⟨hwithin, heq⟩
  · rw [heq]
    refine .fails rfl hcode ?_
    rintro ⟨-, hall, -⟩
    exact absurd (hall _ (Option.mem_toList.mpr rfl)).1 hlt.ne
  · rw [heq]
    rcases hgo hwithin with ⟨hok, hended⟩ | ⟨code, hcode, hne, hwhy⟩ | ⟨s, hs, hcount, hinv⟩
    · exact .ok rfl rfl hok hended hwithin
    · exact .fails hcode hne fun hall => hwhy (hall.1.imp_right fun he => he.2)
    · exact .goes rfl rfl hs hcount hinv

end Reports

variable {before : Prop} {maxSize : Int} {r : Round ZStatus} {rounds : List (Round ZStatus)}
  {inlen : Nat}

/-- A return without a call of `writefunc` where the end of the stream was not reported. -/
theorem stop_reports {σ τ : Type} {r : Round σ} {ended : σ → Prop}
    {unzipped : Int} {count : τ → Int} {next : τ → Prop → Prop} {made : Bool}
    {code : Uncomp} (hcode : code ≠ .ok) (hwhy : ¬ (before ∨ ended r.status)) :
    (Turn.stop made code : Turn τ).Reports r ended before maxSize unzipped count next :=
  .fails rfl hcode fun hall => hwhy (hall.1.imp_right fun he => he.2)

/-! ## zlib -/

/-- There is always an output buffer, and `inflate` stays at the end of the stream. -/
structure InflateSound (rounds : List (Round ZStatus)) : Prop where
  buffers : ∀ r ∈ rounds, 0 < r.outbuf.getD 0
  stays : rounds.Pairwise fun r r' =>
    r.status = .streamEnd → r'.status = .streamEnd ∧ r'.out = []

/-- What holds between two rounds: the end was reported iff it was in the last round. -/
structure InflateInv (maxSize : Int) (s : InflateState) (rounds : List (Round ZStatus))
    (before : Prop) : Prop where
  sound : InflateSound rounds
  within : 0 < maxSize → s.unzipped ≤ maxSize
  ended_iff : before ↔ s.ended = true
  stays : s.ended = true → ∀ r ∈ rounds, r.status = .streamEnd ∧ r.out = []

theorem InflateSound.tail
    (h : InflateSound (r :: rounds)) : InflateSound rounds where
  buffers := (forall_mem_cons.mp h.buffers).2
  stays := h.stays.tail

/-- An error is not reported behind the end of the stream. -/
theorem InflateInv.not_ended {s : InflateState}
    (h : InflateInv maxSize s (r :: rounds) before) (hr : r.status ≠ .streamEnd) :
    ¬ (before ∨ r.status = .streamEnd) := by
  rintro (hbefore | hend)
  · exact hr (h.stays (h.ended_iff.mp hbefore) r mem_cons_self).1
  · exact hr hend

/-- The only error that does not end the loop is the first one. -/
theorem inflateTurn_of_error {s : InflateState}
    (hbuf : 0 < r.outbuf.getD 0) (herror : r.status.works = false) :
    inflateTurn maxSize inlen s r = .stop true .errCorrupt ∨ inflateTurn maxSize inlen s r =
        { made := false, pass := none, next := .inr { s with retriable := false } } := by
  unfold inflateTurn
  rw [if_neg (by omega)]
  obtain ⟨outbuf, out, availIn, status, accepts, fits⟩ := r
  cases status with
  | needDict reset | dataError reset =>
    dsimp only
    split_ifs
    · exact .inr rfl
    · exact .inl rfl
  | streamError | memError => exact .inl rfl
  | ok | streamEnd | bufError => exact absurd herror (by simp [ZStatus.works])

theorem inflate_reports (h : InflateSound rounds) :
    (memInflate maxSize inlen rounds).Reports (· = .streamEnd) False maxSize 0 := by
  refine decode_reports (n := InflateState.unzipped) (P := InflateInv maxSize) ?_ ?_
    ⟨h, fun hmax => hmax.le, by simp, fun hend => absurd hend (by simp)⟩
  · intro s r rounds before hinv
    have hbuf := hinv.sound.buffers r mem_cons_self
    by_cases hworks : r.status.works = true
    swap
    · have hr : r.status ≠ .streamEnd := by
        intro hend
        rw [hend] at hworks
        exact hworks rfl
      rcases @inflateTurn_of_error maxSize r inlen s hbuf (by simpa using hworks) with
        hturn | hturn <;> rw [hturn]
      · exact stop_reports (by simp) (hinv.not_ended hr)
      · exact .again rfl rfl rfl rfl ⟨hinv.sound.tail, hinv.within, hinv.ended_iff,
          fun hend r' hr' => hinv.stays hend r' (mem_cons_of_mem _ hr')⟩
    rw [inflateTurn_of_works hbuf hworks]
    refine passOn_reports hinv.within fun hwithin => ?_
    split_ifs with hfull hend
    · refine .inr (.inr ⟨_, rfl, rfl, hinv.sound.tail, hwithin, ?_, ?_⟩)
      · rw [decide_eq_true_iff]
        refine ⟨fun hor => ?_, .inr⟩
        exact hor.elim
          (fun hbefore => (hinv.stays (hinv.ended_iff.mp hbefore) r mem_cons_self).1) id
      · intro hend r' hr'
        exact rel_of_pairwise_cons hinv.sound.stays hr' (of_decide_eq_true hend)
    · exact .inl ⟨rfl, .inr hend⟩
    · exact .inr (.inl ⟨_, rfl, by simp, hinv.not_ended hend⟩)
  · intro s before hinv
    have hworks : (inflateIdle s).status.works = true := by
      unfold inflateIdle
      split_ifs <;> rfl
    have hstatus : before ↔ (inflateIdle s).status = .streamEnd := by
      rw [hinv.ended_iff]
      unfold inflateIdle
      split_ifs with hend
      all_goals simp [hend]
    rw [inflateTurn_of_works (by simp [inflateIdle, chunkSize]) hworks]
    have hshort : ¬ (inflateIdle s).out.length = (inflateIdle s).outbuf.getD 0 := by
      simp [inflateIdle, chunkSize]
    refine passOn_reports hinv.within fun _ => ?_
    split_ifs with hend
    · exact .inl ⟨rfl, .inr hend⟩
    · exact .inr (.inl ⟨_, rfl, by simp, by rwa [hstatus, or_self]⟩)

/-! ## bzip2 -/

/-- There is always an output buffer, and the end of the stream is reported exactly with a block
that is not empty and does not fill it. -/
def BzunzipSound (rounds : List (Round BzStatus)) : Prop :=
  ∀ r ∈ rounds, 0 < r.outbuf.getD 0 ∧ (r.status.works = true →
    (r.status = .streamEnd ↔ 0 < r.out.length ∧ r.out.length < r.outbuf.getD 0))

theorem bzunzip_reports {rounds : List (Round BzStatus)} (h : BzunzipSound rounds) :
    (memBzunzip maxSize inlen rounds).Reports (· = .streamEnd) False maxSize 0 := by
  refine decode_reports (n := BzState.unzipped)
    (P := fun s rounds before => BzunzipSound rounds ∧ (0 < maxSize → s.unzipped ≤ maxSize) ∧
      ¬ before ∧ s.ended = false) ?_ ?_ ⟨h, fun hmax => hmax.le, not_false, rfl⟩
  · rintro s r rounds before ⟨hsound, hwithin, hbefore, -⟩
    obtain ⟨hbuf, hend⟩ := hsound r mem_cons_self
    have hfits := r.fits
    by_cases hworks : r.status.works = true
    swap
    · have hturn : bzunzipTurn maxSize inlen s r = .stop true .errError := by
        unfold bzunzipTurn
        rw [if_neg (by omega)]
        obtain ⟨outbuf, out, availIn, status, accepts, fits⟩ := r
        cases status <;> first | rfl | exact absurd rfl hworks
      rw [hturn]
      refine stop_reports (by simp) ?_
      rintro (hb | he)
      · exact hbefore hb
      · rw [he] at hworks
        exact hworks rfl
    have hend := hend hworks
    rw [bzunzipTurn_of_works hbuf hworks]
    by_cases hempty : r.out.length = 0
    · rw [if_pos hempty]
      refine stop_reports (by simp) ?_
      rw [hend]
      rintro (hb | he)
      · exact hbefore hb
      · omega
    rw [if_neg hempty]
    refine passOn_reports hwithin fun hle => ?_
    split_ifs with hfull
    · have hnot : ¬ r.status = .streamEnd := by
        rw [hend]
        omega
      exact .inr (.inr ⟨_, rfl, rfl, (forall_mem_cons.mp hsound).2, hle,
        not_or.mpr ⟨hbefore, hnot⟩, decide_eq_false hnot⟩)
    · exact .inl ⟨rfl, .inr (hend.mpr ⟨by omega, by omega⟩)⟩
  · rintro s before ⟨-, -, hbefore, hended⟩
    have hstatus : (bzunzipIdle s).status = .ok := by
      unfold bzunzipIdle
      rw [if_neg (by simp [hended])]
    rw [bzunzipTurn_of_works (by simp [bzunzipIdle, chunkSize]) (by rw [hstatus]; rfl)]
    refine stop_reports (by simp) ?_
    rw [hstatus]
    rintro (hb | he)
    · exact hbefore hb
    · exact absurd he (by simp)

/-! ## brotli -/

/-- The buffers have the size of the own one, and nothing follows the end of the stream. -/
def BrSound (rounds : List (Round BrStatus)) : Prop :=
  ∀ r ∈ rounds, r.outbuf = some fileBufferSize ∧ (r.status = .success → r.availIn = 0)

theorem brNext_spec {r : Round BrStatus} (hend : r.status = .success → r.availIn = 0)
    (outsize : Int) :
    (brNext r outsize = .inl .ok ∧ r.status = .success) ∨
    (brNext r outsize = .inl .errCorrupt ∧ r.status ≠ .success) ∨
    (brNext r outsize = .inr outsize ∧ r.status ≠ .success) := by
  unfold brNext
  cases hstatus : r.status with
  | needsMoreInput =>
    dsimp only
    split_ifs
    · exact .inr (.inl ⟨rfl, by simp⟩)
    · exact .inr (.inr ⟨rfl, by simp⟩)
  | needsMoreOutput => exact .inr (.inr ⟨rfl, by simp⟩)
  | success =>
    rw [if_neg (not_not.mpr (hend hstatus))]
    exact .inl ⟨rfl, rfl⟩
  | error => exact .inr (.inl ⟨rfl, by simp⟩)

theorem brotli_reports {rounds : List (Round BrStatus)} (h : BrSound rounds) :
    (brDecompress maxSize inlen rounds).Reports (· = .success) False maxSize 0 := by
  have hround : ∀ {outsize : Int} {r : Round BrStatus} {before : Prop} {next : Int → Prop → Prop},
      r.outbuf = some fileBufferSize → (r.status = .success → r.availIn = 0) →
      (0 < maxSize → outsize ≤ maxSize) → ¬ before →
      ((0 < maxSize → outsize + r.out.length ≤ maxSize) → r.status ≠ .success →
        brNext r (outsize + r.out.length) = .inr (outsize + r.out.length) →
        next (outsize + r.out.length) (before ∨ r.status = .success)) →
      (brTurn maxSize inlen outsize r).Reports r (· = .success) before maxSize outsize id next := by
    intro outsize r before next hsized hend hwithin hbefore hgoes
    rw [brTurn_of_sized hsized]
    have hnext := brNext_spec hend (outsize + r.out.length)
    refine passOn_reports hwithin fun hle => ?_
    rcases hnext with ⟨hs, hend⟩ | ⟨hs, hnot⟩ | ⟨hs, hnot⟩
    · exact .inl ⟨hs, .inr hend⟩
    · exact .inr (.inl ⟨_, hs, by simp, not_or.mpr ⟨hbefore, hnot⟩⟩)
    · exact .inr (.inr ⟨_, hs, rfl, hgoes hle hnot hs⟩)
  refine decode_reports (n := id)
    (P := fun outsize rounds before => BrSound rounds ∧ (0 < maxSize → outsize ≤ maxSize) ∧
      ¬ before) ?_ ?_ ⟨h, fun hmax => hmax.le, not_false⟩
  · rintro outsize r rounds before ⟨hsound, hwithin, hbefore⟩
    obtain ⟨hsized, hend⟩ := hsound r mem_cons_self
    refine hround hsized hend hwithin hbefore fun hle hnot _ => ?_
    exact ⟨(forall_mem_cons.mp hsound).2, hle, not_or.mpr ⟨hbefore, hnot⟩⟩
  · rintro outsize before ⟨-, hwithin, hbefore⟩
    refine hround rfl (fun _ => rfl) hwithin hbefore fun _ _ hgo => ?_
    exact absurd hgo (by simp [brNext, brIdle])

/-! ## zstd -/

/-- No block is cut although it is within `max_size`. -/
def Uncut (maxSize : Int) : Int → List (Round ZstdStatus) → Prop
  | _, [] => True
  | unzipped, r :: rounds =>
    ¬ (0 < maxSize ∧ unzipped + r.out.length < maxSize ∧
      maxSize < unzipped + 2 * r.out.length) ∧
    Uncut maxSize (unzipped + r.out.length) rounds

/-- The input is used up exactly when the end of the stream is reported; a buffer is not larger than
the memory. -/
def ZstdSound (rounds : List (Round ZstdStatus)) : Prop :=
  ∀ r ∈ rounds, (r.status = .hint 0 ↔ r.status ≠ .error ∧ r.availIn = 0) ∧
    r.outbuf.getD 0 < 2 ^ 63

theorem zstdTurn_reports {unzipped : Int} {r : Round ZstdStatus} {next : Int → Prop → Prop}
    (hend : r.status = .hint 0 ↔ r.status ≠ .error ∧ r.availIn = 0)
    (hroom : r.outbuf.getD 0 < 2 ^ 63) (hwithin : 0 < maxSize → unzipped ≤ maxSize)
    (huncut : ¬ (0 < maxSize ∧ unzipped + r.out.length < maxSize ∧
      maxSize < unzipped + 2 * r.out.length)) (hbefore : ¬ before)
    (hgoes : (0 < maxSize → unzipped + r.out.length ≤ maxSize) → r.status ≠ .hint 0 →
      next (unzipped + r.out.length) (before ∨ r.status = .hint 0)) :
    (zstdTurn maxSize inlen unzipped r).Reports r (· = .hint 0) before maxSize unzipped id next := by
  have hfits := r.fits
  cases hstatus : r.status with
  | error =>
    have hturn : zstdTurn maxSize inlen unzipped r = .stop true .errError := by
      rw [zstdTurn, hstatus]
    rw [hturn]
    exact stop_reports (by simp) (not_or.mpr ⟨hbefore, by simp [hstatus]⟩)
  | hint n =>
    rw [hstatus] at hend hgoes
    have hend' : n = 0 ↔ r.availIn = 0 := by simpa using hend
    have hmade : (zstdTurn maxSize inlen unzipped r).made = true := by
      rw [zstdTurn, hstatus]
    have hpass : (zstdTurn maxSize inlen unzipped r).pass = some
        { data := r.out
          room := r.outbuf.getD 0
          len := zstdCanWrite maxSize (unzipped + r.out.length) r.out.length
          accepted := r.accepts } := by
      rw [zstdTurn, hstatus]
    have hnext : (zstdTurn maxSize inlen unzipped r).next =
        if r.accepts = false then .inl .errOutput
        else if 0 < maxSize ∧ maxSize < unzipped + r.out.length then
          .inl (tooBig (unzipped + r.out.length) inlen .errOutput)
        else if r.availIn = 0 then .inl .ok else .inr (unzipped + r.out.length) := by
      rw [zstdTurn, hstatus]
    by_cases haccepts : r.accepts = true
    swap
    · refine .fails (hnext.trans (if_pos (by simpa using haccepts))) (by simp) ?_
      rintro ⟨-, hall, -⟩
      exact haccepts (hall _ (Option.mem_toList.mpr hpass)).2
    rw [if_neg (by simp [haccepts])] at hnext
    by_cases hexceeds : 0 < maxSize ∧ maxSize < unzipped + r.out.length
    · -- a negative size is passed as a huge one
      refine .fails (hnext.trans (if_pos hexceeds)) ?_ ?_
      · unfold tooBig
        split_ifs <;> simp
      · rintro ⟨-, hall, -⟩
        have hwhole := (hall _ (Option.mem_toList.mpr hpass)).1
        have hle := hwithin hexceeds.1
        unfold zstdCanWrite at hwhole
        dsimp only at hwhole
        rw [if_pos ⟨by omega, by omega⟩] at hwhole
        omega
    have hle : 0 < maxSize → unzipped + r.out.length ≤ maxSize := by
      intro hmax
      by_contra hgt
      exact hexceeds ⟨hmax, by omega⟩
    have hwhole : zstdCanWrite maxSize (unzipped + r.out.length) r.out.length = r.out.length := by
      unfold zstdCanWrite
      by_cases hmax : 0 < maxSize
      · rw [if_neg]
        rintro ⟨hne, hlt⟩
        exact huncut ⟨hmax, by omega, by omega⟩
      · rw [if_neg hmax, if_neg (by simp)]
    rw [hwhole, haccepts] at hpass
    rw [if_neg hexceeds] at hnext
    by_cases havail : r.availIn = 0
    · refine .ok hmade hpass (hnext.trans (if_pos havail)) (.inr ?_) hle
      rw [hstatus, hend'.mpr havail]
    · refine .goes hmade hpass (hnext.trans (if_neg havail)) rfl ?_
      rw [hstatus]
      exact hgoes hle fun hhint => havail (hend'.mp (by simpa using hhint))

theorem zstd_reports {rounds : List (Round ZstdStatus)}
    (hinlen : inlen ≠ 0) (h : ZstdSound rounds) (huncut : Uncut maxSize 0 rounds) :
    (memZstdUncompress maxSize inlen rounds).Reports (· = .hint 0) False maxSize 0 := by
  unfold memZstdUncompress
  rw [if_neg hinlen]
  refine decode_reports (n := id)
    (P := fun unzipped rounds before => ZstdSound rounds ∧ Uncut maxSize unzipped rounds ∧
      (0 < maxSize → unzipped ≤ maxSize) ∧ ¬ before) ?_ ?_ ⟨h, huncut, fun hmax => hmax.le, not_false⟩
  · rintro unzipped r rounds before ⟨hsound, ⟨hfirst, hrest⟩, hwithin, hbefore⟩
    obtain ⟨hend, hroom⟩ := hsound r mem_cons_self
    refine zstdTurn_reports hend hroom hwithin hfirst hbefore fun hle hnot => ?_
    exact ⟨(forall_mem_cons.mp hsound).2, hrest, hle, not_or.mpr ⟨hbefore, hnot⟩⟩
  · rintro unzipped before ⟨-, -, -, hbefore⟩
    exact stop_reports (by simp) (not_or.mpr ⟨hbefore, by simp [zstdIdle]⟩)

/-! ## All decoders -/

/-- Every decoder returns `CI_UNCOMP_OK` exactly if its library has reported the end of the stream
and every decoded byte was taken by `writefunc`: zlib always, the others where their tests for the
end agree with the status of the library. -/
theorem decoders_report (maxSize : Int) (inlen : Nat) :
    (∀ rounds, InflateSound rounds →
      (memInflate maxSize inlen rounds).Reports (· = .streamEnd) False maxSize 0) ∧
    (∀ rounds, BzunzipSound rounds →
      (memBzunzip maxSize inlen rounds).Reports (· = .streamEnd) False maxSize 0) ∧
    (∀ rounds, BrSound rounds →
      (brDecompress maxSize inlen rounds).Reports (· = .success) False maxSize 0) ∧
    (∀ rounds, inlen ≠ 0 → ZstdSound rounds → Uncut maxSize 0 rounds →
      (memZstdUncompress maxSize inlen rounds).Reports (· = .hint 0) False maxSize 0) :=
  ⟨fun _ => inflate_reports, fun _ => bzunzip_reports, fun _ => brotli_reports,
    fun _ => zstd_reports⟩

/-- A stream of four bytes in one block. -/
theorem decoders_report_four :
    (memInflate 0 10 [⟨some 8192, [1, 2, 3, 4], 0, .streamEnd, true, by decide⟩]).Reports
      (· = .streamEnd) False 0 0 ∧
    (memBzunzip 0 10 [⟨some 8192, [1, 2, 3, 4], 0, .streamEnd, true, by decide⟩]).Reports
      (· = .streamEnd) False 0 0 ∧
    (brDecompress 0 10 [⟨some 16384, [1, 2, 3, 4], 0, .success, true, by decide⟩]).Reports
      (· = .success) False 0 0 ∧
    (memZstdUncompress 0 10 [⟨some 131072, [1, 2, 3, 4], 0, .hint 0, true, by decide⟩]).Reports
      (· = .hint 0) False 0 0 := by
  obtain ⟨hz, hbz, hbr, hzstd⟩ := decoders_report 0 10
  refine ⟨hz _ ⟨?_, pairwise_singleton _ _⟩, hbz _ ?_, hbr _ ?_,
    hzstd _ (by decide) ?_ ⟨by decide, trivial⟩⟩
  all_goals
    intro r hr
    obtain rfl := mem_singleton.mp hr
  · decide
  · exact ⟨by decide, fun _ => by decide⟩
  · exact ⟨rfl, fun _ => rfl⟩
  · exact ⟨by decide, by decide⟩

/-- A truncated bzip2 stream is taken for a whole one, and so is a truncated zstd stream; an empty
bzip2 stream is an error, and so is a brotli stream with something behind it. -/
theorem decoders_report_fails :
    ¬ (memBzunzip 0 10 [⟨some 8192, [1, 2, 3], 0, .ok, true, by decide⟩]).Reports
      (· = .streamEnd) False 0 0 ∧
    ¬ (memZstdUncompress 0 10 [⟨some 131072, [1, 2, 3], 0, .hint 5, true, by decide⟩]).Reports
      (· = .hint 0) False 0 0 ∧
    ¬ (memBzunzip 0 10 [⟨some 8192, [], 0, .streamEnd, true, by decide⟩]).Reports
      (· = .streamEnd) False 0 0 ∧
    ¬ (brDecompress 0 10 [⟨some 16384, [1, 2, 3], 1, .success, true, by decide⟩]).Reports
      (· = .success) False 0 0 := by
  refine ⟨?_, ?_, ?_, ?_⟩
  · intro h
    have hok := h.ok_iff.mp rfl
    obtain ⟨r, hr, hend⟩ := hok.1.resolve_left not_false
    obtain rfl := mem_singleton.mp hr
    exact absurd hend (by decide)
  · intro h
    have hok := h.ok_iff.mp rfl
    obtain ⟨r, hr, hend⟩ := hok.1.resolve_left not_false
    obtain rfl := mem_singleton.mp hr
    exact absurd hend (by decide)
  · intro h
    have hok := h.ok_iff.mpr ⟨.inr ⟨_, mem_singleton_self _, rfl⟩,
      (allTaken_nil (σ := BzStatus)).1, rfl⟩
    exact absurd hok (by decide)
  · intro h
    have hok := h.ok_iff.mpr ⟨.inr ⟨_, mem_singleton_self _, rfl⟩, allTaken_cons.mpr allTaken_nil⟩
    exact absurd hok (by decide)

end CIcap
