import CIcap.Request.Answer

/-! # Trailers and their announcement

The announcement of trailers is decided when the head of the response is built, the sending of
them when the body has been closed. The two agree under conditions on the states of the run
(`Run.TrailersOk`) and on the services; a run that breaks one of them follows the theorem.
-/

namespace CIcap

open CText Pieces List

variable {σ : Type} (cfg : Config σ)

/-- Trailers begin only behind a head that announces them, and only once. -/
structure TrailersAnnounced (wire : List Seg) : Prop where
  behind : ∀ l r, started wire = l ++ .trailers :: r → ∃ h, .head h ∈ l ∧ h.announces = true
  once : (started wire).count .trailers ≤ 1

/-- The conditions under which trailers and their announcement agree: the data are locked while
a body is only read; when a head is built for a response with promised trailers, the response
has a body and the head has room for its lines; when the trailers are sent, there is no list of
trailers or it has lines; and a response that has promised trailers is not already complete when
the body of the request ends. -/
def Run.TrailersOk (c : Run σ) : Prop :=
  c.DrainsLocked ∧ c.HeadHasRoom ∧
  (c.updates = true → c.req.status = .nothing → c.req.trailerNames.isSome = true →
    respCheckBody (answerEntities c.req.type c.req.entities) = true) ∧
  (c.updates = true → c.req.status = .eof → c.req.trailerNames.isSome = true →
    ∀ h ∈ c.req.xtrailers, h.lines ≠ []) ∧
  (match c.pc with
    | .endOfData => c.req.status = .eof → c.req.block.bytes = [] → c.req.responceHasbody = true →
        c.req.trailerNames = none
    | _ => True)

instance (c : Run σ) : Decidable c.TrailersOk := by
  unfold Run.TrailersOk
  have (pc : Pc) : Decidable (match pc with
    | .endOfData => c.req.status = .eof → c.req.block.bytes = [] → c.req.responceHasbody = true →
        c.req.trailerNames = none
    | _ => True) := by
    cases pc <;> dsimp only <;> infer_instance
  infer_instance

def trailerPremises : Premises := ⟨False, True, True, True, True⟩

theorem Run.TrailersOk.stepOk {c : Run σ} (h : c.TrailersOk) : StepOk trailerPremises c := by
  obtain ⟨hlock, hroom, hbody, hlist, hrest⟩ := h
  constructor
  · intro _ l hpc hl
    unfold Run.DrainsLocked at hlock
    rcases hpc with hpc | hpc <;> rw [hpc] at hlock <;> exact hlock hl
  · intro hup
    have hup' := c.updates_iff.mpr hup
    exact ⟨fun _ => hroom hup', fun _ => hbody hup', fun _ => hlist hup'⟩
  · intro _ hpc
    rw [hpc] at hrest
    exact hrest

/-! ## The blocks of a response with trailers -/

section Blocks

variable {P : Premises} {s : Side σ} {status : SendStatus} {cs : List (List UInt8)}
  {q : List QBlock}

theorem Queue.no_trailers (h : Queue P s status cs q) (hst : status ≠ .trailers) :
    .trailers ∉ q.map Prod.fst := by
  have hes : ∀ es : List QBlock, (∀ q ∈ es, ∃ k, q.1 = .entity k) →
      .trailers ∉ es.map Prod.fst := by
    intro es h hmem
    obtain ⟨b, hb, hsrc⟩ := mem_map.mp hmem
    obtain ⟨k, hk⟩ := h b hb
    rw [hk] at hsrc
    cases hsrc
  have hcs : ∀ cs : List (List UInt8), .trailers ∉ (cs.map chunkBlock).map Prod.fst := by
    simp [chunkBlock]
  cases h with
  | nothing => simp
  | heads _ _ he => simpa [Side.head] using hes _ he.src
  | body _ _ he | closed _ _ he =>
    have h1 := hes _ he.src
    simp only [map_cons, map_append, mem_cons, mem_append] at *
    tauto
  | bodiless _ _ he => simpa [Side.head] using hes _ he.src
  | simple => simp
  | trailers => exact absurd rfl hst

/-- A response with trailers: its head announces them, and nothing else is a trailer. -/
theorem Queue.with_trailers (h : Queue trailerPremises s .trailers cs q) :
    Built s ∧ s.responseHeader.announces = true ∧
      ∃ rest tb, q = s.head :: rest ++ [(.trailers, tb)] ∧ .trailers ∉ (s.head :: rest).map Prod.fst := by
  cases h with
  | heads _ hi => cases hi
  | @trailers _ q tb hb hq _ _ hann =>
    obtain ⟨-, -, hann⟩ := hann trivial
    refine ⟨hb, hann trivial trivial, ?_⟩
    have hno := hq.no_trailers (by decide)
    cases hq with
    | heads _ hi => cases hi
    | closed | bodiless => exact ⟨_, tb, rfl, hno⟩
    | simple _ hp => exact absurd hb.packed (by rw [hp]; decide)

end Blocks

/-! ## The agreement -/

/-- What has been written of a response agrees with its head. -/
theorem Sent.trailersAnnounced {s : Side σ} {wire : List Seg} {produced : List UInt8}
    {pre q : List QBlock} {cs : List (List UInt8)}
    (h : Sent trailerPremises s wire produced pre cs q) : TrailersAnnounced wire := by
  have hsub := h.writes.started_sublist
  by_cases hmem : BlockSrc.trailers ∈ (pre ++ q).map Prod.fst
  · have hst : s.status = .trailers := by
      by_contra hst
      rcases mem_append.mp (map_append ▸ hmem) with hpre | hq
      · rcases h.pre_ok with rfl | ⟨head, out, rfl, -⟩ <;> simp at hpre
      · exact h.queue.no_trailers hst hq
    have hq := h.queue
    rw [hst] at hq
    obtain ⟨hb, hann, rest, tb, rfl, hno⟩ := hq.with_trailers
    obtain rfl : pre = [] := by
      by_contra hne
      exact absurd (h.pre_locked trivial hne) (by simp)
    rw [nil_append] at hsub
    have hwrites := h.writes.started_eq
    constructor
    · intro l r hl
      -- the head is the first block, so it stands before the trailers
      refine ⟨s.responseHeader, ?_, hann⟩
      have hfirst : ∃ more, kinds ([] ++ (s.head :: rest ++ [(.trailers, tb)])) =
          .head s.responseHeader :: more := by
        have hbuf : s.responseHeader.buf.isEmpty = false := by
          simpa using Headers.buf_ne_nil hb.lines
        exact ⟨kinds (rest ++ [(.trailers, tb)]), by simp [kinds, Side.head, hbuf]⟩
      obtain ⟨more, hmore⟩ := hfirst
      rw [hl, hmore] at hwrites
      cases l with
      | nil => cases hwrites
      | cons x l =>
        rw [(cons.inj hwrites).1]
        exact mem_cons_self
    · refine (hsub.count_le _).trans ?_
      rw [map_append, count_append, count_eq_zero.mpr hno]
      simp
  · have hno : BlockSrc.trailers ∉ started wire := fun hm => hmem (hsub.subset hm)
    constructor
    · intro l r hl
      exact absurd (by rw [hl]; simp) hno
    · rw [count_eq_zero.mpr hno]
      omega

/-- **Trailers.** In a run that meets the conditions, with services that are productive at the
end of the body and add no `Trailer` header themselves, trailers are written only behind a head
that announces them and only once; and when the processing ends without an error, trailers that
the head announces have been written. -/
theorem trailers_announced {req : Req σ} (hreq : Begins cfg req) {net : Net}
    (hnet : net.wire = []) (svc : σ) (ts : List Tick)
    (hcfg : ∀ m, cfg.Offers m → m.Productive ∧ m.Plain)
    (hok : Machine.AllSteps (Run.step cfg) (fun c _ => c.TrailersOk) (.begin req net svc) ts)
    {c : Run σ} (hc : c = Machine.run (Run.step cfg) (.begin req net svc) ts) :
    TrailersAnnounced c.net.final ∧
      (c.pc = .finished .ok → (∃ h, .head h ∈ started c.net.final ∧ h.announces = true) →
        .trailers ∈ started c.net.final) := by
  have hinv : SendInv trailerPremises c := by
    rw [hc]
    refine hreq.run_sendInv _ (fun m hm => ⟨False.elim, fun _ => (hcfg m hm).1,
      fun _ => (hcfg m hm).2⟩) hnet svc ?_
    exact Machine.AllSteps.imp (fun c _ hc => hc.stepOk) hok
  obtain ⟨pre, cs, q, hs, hst⟩ := hinv
  refine ⟨hs.trailersAnnounced, ?_⟩
  rintro hend ⟨h, hmem, hann⟩
  unfold Stage at hst
  rw [hend] at hst
  obtain ⟨b, hb, hsrc⟩ := mem_map.mp (hs.writes.started_sublist.subset hmem)
  obtain ⟨hblock, tb, htb, hq⟩ := hst.trailers rfl trivial trivial trivial ⟨h, b.2, by
    rw [← hsrc]; exact hb, hann⟩
  rw [hs.writes.started_of_nil (Block.out_of_nil hblock)]
  refine mem_map.mpr ⟨(.trailers, tb), mem_filter.mpr ⟨mem_append_right _ hq, ?_⟩, rfl⟩
  simpa using htb

theorem floodService_plain (n : Nat) : (floodService n).Plain := by
  constructor
  · intro _ _ a ha
    cases ha
  · nofun
  · nofun
  · rintro _ ⟨⟩ _ _ a ha
    rcases mem_append.mp ha with h | h
    · rw [eq_of_mem_replicate h]
      decide +kernel
    · rw [mem_singleton.mp h]
      rfl
  · rintro _ ⟨⟩ _ _ _ a ha
    cases ha

/-- A response with trailers that its head announces. -/
theorem trailers_announced_flood :
    let c := Machine.run (Run.step (.only (floodService 0)))
      (.begin .alloc { input := sampleHead ++ (bytes "0" ++ crlf ++ crlf) } ())
      (sampleTicks ++ [tick 0 0, tick 0 0, tick 5 0, tick 0 0, tick 0 0, tick 0 0, tick 0 512,
        tick 0 0, tick 0 0, tick 0 512, tick 0 0, tick 0 512, tick 0 0])
    TrailersAnnounced c.net.final ∧ c.pc = .finished .ok ∧
      (∃ h, .head h ∈ started c.net.final ∧ h.announces = true) ∧
      .trailers ∈ started c.net.final := by
  intro c
  have hend : c.pc = .finished .ok := Pc.eq_finished (by decide +kernel)
  have hhead : .head c.req.responseHeader ∈ started c.net.final ∧
      c.req.responseHeader.announces = true := by decide +kernel
  have h := trailers_announced (.only (floodService 0)) (.inl rfl) rfl () _ (fun m hm => by
      rw [Config.only_offers hm]
      exact ⟨(floodService_ok 0).2, floodService_plain 0⟩)
    (by decide +kernel) (show c = _ from rfl)
  exact ⟨h.1, hend, ⟨_, hhead⟩, h.2 hend ⟨_, hhead⟩⟩

/-- A service that answers every request at once with a response without a body, and promises
trailers. -/
def emptyService : Service Unit where
  modName := bytes "empty"
  supports _ := true
  istag := bytes "1"
  initRequestData := some fun _ _ =>
    ((), [.promiseTrailers (bytes "T"), .httpResponseCreate false false, .unlockData])
  serviceIo := some fun _ _ a => (.ok .eof (some (a.wdata.getD []).length), (), [])

/-- A response without a body is followed by trailers that its head does not announce, when it is
sent while the body of the request still comes in. -/
theorem trailers_not_announced :
    let c := Machine.run (Run.step (.only emptyService))
      (.begin .alloc { input := sampleHead ++ (bytes "1" ++ crlf) } ())
      (sampleTicks ++ [tick 0 0, tick 0 0, tick 1 0, tick 0 0, tick 0 512, tick 0 0, tick 1 0,
        tick 0 0, tick 0 512])
    ¬ TrailersAnnounced c.net.final := by
  intro c
  have hwire : started c.net.final = [.head c.req.responseHeader, .trailers] ∧
      c.req.responseHeader.announces = false := by decide +kernel
  intro h
  obtain ⟨head, hmem, hann⟩ := h.behind [.head c.req.responseHeader] [] hwire.1
  rw [BlockSrc.head.inj (mem_singleton.mp hmem)] at hann
  exact Bool.false_ne_true (hwire.2.symm.trans hann)

end CIcap
