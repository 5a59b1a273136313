import CIcap.Acl.Spec

/-! # Sequences of access list definitions

After any sequence of definitions an access list is still found under its name, with the values it
had and more (`GrewTo`), and its name is no longer than `MAX_NAME_LEN`. So what a definition has
stored is matched by every later request; what it has not stored although it reported success are
the values its type cannot read and those of a name that was cut.
-/

namespace CIcap

open CText List

variable {ρ τ δ : Type}

/-! ## Access lists grow -/

/-- The access list `b` is `a` with more values. -/
structure AclSpec.GrewTo (a b : AclSpec δ) : Prop where
  name : b.name = a.name
  type : b.type = a.type
  parameter : b.parameter = a.parameter
  data : ∀ x ∈ a.data, x ∈ b.data

theorem AclSpec.GrewTo.refl (a : AclSpec δ) : a.GrewTo a := ⟨rfl, rfl, rfl, fun _ hx => hx⟩

/-- The access list after `ci_acl_spec_new_data`, whatever that has returned. -/
def AclSpec.added (types : List (AclType ρ τ δ)) (memory : AclMemory) (val : List UInt8)
    (spec : AclSpec δ) : AclSpec δ :=
  (aclSpecNewData types memory spec val).getD spec

theorem AclSpec.grewTo_added (types : List (AclType ρ τ δ)) (memory : AclMemory) (val : List UInt8)
    (spec : AclSpec δ) : spec.GrewTo (spec.added types memory val) := by
  unfold AclSpec.added aclSpecNewData
  cases types[spec.type]?.bind (fun ops => ops.dup val) with
  | none => exact .refl spec
  | some x =>
    cases memory.data with
    | false => exact .refl spec
    | true => exact ⟨rfl, rfl, rfl, fun y hy => mem_append_left _ hy⟩

variable {types : List (AclType ρ τ δ)} {spec : AclSpec δ} {specs : List (AclSpec δ)}

theorem AclSpec.added_of_noMemory {memory : AclMemory}
    (hmem : memory.data = false) (val : List UInt8) (spec : AclSpec δ) :
    spec.added types memory val = spec := by
  unfold AclSpec.added aclSpecNewData
  cases types[spec.type]?.bind (fun ops => ops.dup val) with
  | none => rfl
  | some x => simp [hmem]

/-! ## Searching -/

theorem search_update {f : AclSpec δ → AclSpec δ} (hf : ∀ spec, (f spec).name = spec.name)
    (specs : List (AclSpec δ)) (name other : List UInt8) :
    aclSpecSearch (updateSpec name f specs) other =
      if other = name then (aclSpecSearch specs name).map f else aclSpecSearch specs other := by
  induction specs with
  | nil => simp [updateSpec, aclSpecSearch]
  | cons spec specs ih =>
    unfold aclSpecSearch at ih ⊢
    by_cases hname : spec.name = name
    · -- the list that is changed is the first one of this name
      by_cases hother : other = name
      · simp [updateSpec, hname, hother, hf]
      · have hne : ¬ name = other := fun h => hother h.symm
        simp [updateSpec, hname, hother, hf, hne]
    · by_cases hother : spec.name = other
      · have hne : ¬ other = name := fun h => hname (hother.trans h)
        simp [updateSpec, hother, hne]
      · simp only [updateSpec, beq_iff_eq, hname, if_false, find?_cons_of_neg, hother,
          not_false_eq_true]
        exact ih

theorem search_append (specs : List (AclSpec δ)) (new : AclSpec δ) (name : List UInt8) :
    aclSpecSearch (specs ++ [new]) name =
      (aclSpecSearch specs name).or (if new.name = name then some new else none) := by
  unfold aclSpecSearch
  by_cases h : new.name = name
  all_goals simp [h]

/-! ## One definition -/

/-- A definition leaves an access list where it is, with its values. -/
theorem addData_grows (types : List (AclType ρ τ δ)) (c : AclCall)
    {name : List UInt8} (h : aclSpecSearch specs name = some spec) :
    ∃ spec', aclSpecSearch (aclAddData types specs c).2 name = some spec' ∧ spec.GrewTo spec' := by
  by_cases hrefused : c.Refused types specs
  · rw [addData_refused hrefused]
    exact ⟨spec, h, .refl spec⟩
  rcases addData_accepted hrefused with ⟨found, hfound, -, hadd⟩ | ⟨i, param, -, -, hadd⟩
  · rw [hadd]
    have hsearch := search_update (f := AclSpec.added types c.memory c.data)
      (fun s => (s.grewTo_added types c.memory c.data).name) specs c.name name
    by_cases hname : name = c.name
    · subst hname
      rw [if_pos rfl, h] at hsearch
      exact ⟨_, hsearch, spec.grewTo_added types c.memory c.data⟩
    · rw [if_neg hname, h] at hsearch
      exact ⟨spec, hsearch, .refl spec⟩
  · rw [hadd, search_append, h]
    exact ⟨spec, rfl, .refl spec⟩

/-- No access list has a longer name than fits its field. -/
def NamesFit (specs : List (AclSpec δ)) : Prop := ∀ spec ∈ specs, spec.name.length ≤ maxNameLen

theorem NamesFit.update (h : NamesFit specs) {f : AclSpec δ → AclSpec δ}
    (hf : ∀ spec, (f spec).name = spec.name) (name : List UInt8) :
    NamesFit (updateSpec name f specs) := by
  induction specs with
  | nil => exact h
  | cons spec specs ih =>
    have hspec := h spec (by simp)
    have hrest := ih fun s hs => h s (by simp [hs])
    rw [updateSpec]
    split
    · intro s hs
      rcases mem_cons.mp hs with rfl | hs
      · rw [hf]
        exact hspec
      · exact h s (by simp [hs])
    · intro s hs
      rcases mem_cons.mp hs with rfl | hs
      · exact hspec
      · exact hrest s hs

theorem NamesFit.addData (h : NamesFit specs)
    (types : List (AclType ρ τ δ)) (c : AclCall) : NamesFit (aclAddData types specs c).2 := by
  by_cases hrefused : c.Refused types specs
  · rw [addData_refused hrefused]
    exact h
  rcases addData_accepted hrefused with ⟨found, -, -, hadd⟩ | ⟨i, param, -, -, hadd⟩
  · rw [hadd]
    exact h.update (fun s => (s.grewTo_added types c.memory c.data).name) c.name
  rw [hadd]
  intro s hs
  rcases mem_append.mp hs with hs | hs
  · exact h s hs
  · rw [mem_singleton.mp hs]
    have hgrew := (AclSpec.mk (c.name.take maxNameLen) i param ([] : List δ)).grewTo_added types
      c.memory c.data
    rw [← AclSpec.added, hgrew.name]
    exact length_take_le _ _

/-- The named access list has the value, and is of the type of the call. -/
def AclCall.StoredIn (types : List (AclType ρ τ δ)) (c : AclCall) (specs : List (AclSpec δ))
    (x : δ) : Prop :=
  ∃ spec, aclSpecSearch specs c.name = some spec ∧
    aclTypelistSearch types (splitType c.type).1 = some spec.type ∧ x ∈ spec.data

theorem AclCall.StoredIn.addData {c : AclCall}
    {x : δ} (h : c.StoredIn types specs x) (next : AclCall) :
    c.StoredIn types (aclAddData types specs next).2 x := by
  obtain ⟨spec, hsearch, htype, hx⟩ := h
  obtain ⟨spec', hsearch', hgrew⟩ := addData_grows types next hsearch
  exact ⟨spec', hsearch', htype.trans (congrArg some hgrew.type.symm), hgrew.data x hx⟩

theorem AclCall.StoredIn.run {types : List (AclType ρ τ δ)} {c : AclCall} {specs : List (AclSpec δ)}
    {x : δ} (h : c.StoredIn types specs x) (later : List AclCall) :
    c.StoredIn types (aclRun types specs later) x := by
  exact Machine.run_inv_all (P := fun specs => c.StoredIn types specs x)
    (fun _ next hs => hs.addData next) h later

theorem namesFit_run (types : List (AclType ρ τ δ)) (calls : List AclCall) :
    NamesFit (aclRun types [] calls) :=
  Machine.run_inv_all (P := NamesFit) (fun _ c hs => hs.addData types c)
    (fun _ h => absurd h not_mem_nil) calls

/-! ## Reported values -/

namespace AclCall

/-- What the result of a definition promises. Success: the value is in the named access list and
matches, whatever is defined later, the requests whose data are equal to it. A value that the type
cannot read is a failure. -/
def Reported (types : List (AclType ρ τ δ)) (specs : List (AclSpec δ)) (c : AclCall) : Prop :=
  ((aclAddData types specs c).1 = true → ∃ x, c.value types = some x ∧ ∀ later, ∃ spec,
    aclSpecSearch (aclRun types (aclAddData types specs c).2 later) c.name = some spec ∧
    aclTypelistSearch types (splitType c.type).1 = some spec.type ∧ x ∈ spec.data ∧
    ∀ type req testData, types[spec.type]? = some type →
      type.getTestData req spec.parameter = some testData → type.equal x testData = true →
      requestMatchSpecslist types req [(spec, false)] = true) ∧
  (c.value types = none → (aclAddData types specs c).1 = false)

/-- The name is not cut, the type reads the value, and there is memory for it or it is in the list
already. -/
def Storable (types : List (AclType ρ τ δ)) (specs : List (AclSpec δ)) (c : AclCall) : Prop :=
  c.name.length ≤ maxNameLen ∧ ∃ x, c.value types = some x ∧
    (c.memory.data = true ∨ ∃ spec, aclSpecSearch specs c.name = some spec ∧ x ∈ spec.data)

variable {types : List (AclType ρ τ δ)} {c : AclCall} {specs : List (AclSpec δ)}

section

variable (hfit : NamesFit specs) (hacc : ¬ c.Refused types specs)
include hfit hacc

/-- The access list of the name before an accepted call, or a new one, and what becomes of it. -/
theorem search_accepted : ∃ spec : AclSpec δ,
    (aclSpecSearch specs c.name = some spec ∨
      aclSpecSearch specs c.name = none ∧ spec.data = []) ∧
    aclTypelistSearch types (splitType c.type).1 = some spec.type ∧
    aclSpecSearch (aclAddData types specs c).2 c.name =
      if c.name.length ≤ maxNameLen then some (spec.added types c.memory c.data) else none := by
  rcases addData_accepted hacc with ⟨spec, hfound, htype, hadd⟩ | ⟨i, param, hnone, htype, hadd⟩
  · have hname : spec ∈ specs ∧ spec.name = c.name :=
      ⟨mem_of_find?_eq_some hfound, by simpa using find?_some hfound⟩
    have hsearch := search_update (f := AclSpec.added types c.memory c.data)
      (fun s => (s.grewTo_added types c.memory c.data).name) specs c.name c.name
    rw [if_pos rfl, hfound] at hsearch
    refine ⟨spec, .inl hfound, htype, ?_⟩
    rw [if_pos (hname.2 ▸ hfit spec hname.1), hadd]
    exact hsearch
  refine ⟨AclSpec.mk c.name i param [], .inr ⟨hnone, rfl⟩, htype, ?_⟩
  have hgrew := (AclSpec.mk (c.name.take maxNameLen) i param ([] : List δ)).grewTo_added types
    c.memory c.data
  rw [hadd, search_append, hnone, Option.none_or, ← AclSpec.added, hgrew.name]
  by_cases hlen : c.name.length ≤ maxNameLen
  · rw [if_pos hlen, take_of_length_le hlen, if_pos rfl]
  · -- a name that was cut is shorter than the one that is looked for
    rw [if_neg hlen, if_neg]
    intro hcut
    have := congrArg length hcut
    simp only [length_take] at this
    omega

theorem stored_of_storable (h : c.Storable types specs) :
    ∃ x, c.value types = some x ∧ c.StoredIn types (aclAddData types specs c).2 x := by
  obtain ⟨hlen, x, hvalue, hkept⟩ := h
  obtain ⟨spec, hbefore, htype, hsearch⟩ := search_accepted hfit hacc
  rw [if_pos hlen] at hsearch
  have hgrew := spec.grewTo_added types c.memory c.data
  refine ⟨x, hvalue, _, hsearch, htype.trans (congrArg some hgrew.type.symm), ?_⟩
  rcases hkept with hmem | ⟨spec', hfound', hx⟩
  · simp only [value, htype, Option.bind_some] at hvalue
    simp [AclSpec.added, aclSpecNewData, hvalue, hmem]
  · rcases hbefore with hfound | ⟨hnone, -⟩
    · rw [hfound] at hfound'
      cases hfound'
      exact hgrew.data x hx
    · rw [hnone] at hfound'
      cases hfound'

theorem storable_of_stored {x : δ}
    (hvalue : c.value types = some x) (h : c.StoredIn types (aclAddData types specs c).2 x) :
    c.Storable types specs := by
  obtain ⟨spec', hafter, -, hx⟩ := h
  obtain ⟨spec, hbefore, -, hsearch⟩ := search_accepted hfit hacc
  rw [hafter] at hsearch
  split_ifs at hsearch with hlen
  refine ⟨hlen, x, hvalue, ?_⟩
  by_cases hmem : c.memory.data = true
  · exact .inl hmem
  · rw [AclSpec.added_of_noMemory (by simpa using hmem)] at hsearch
    cases hsearch
    rcases hbefore with hfound | ⟨-, hnil⟩
    · exact .inr ⟨_, hfound, hx⟩
    · rw [hnil] at hx
      cases hx

end

/-- After any sequence of definitions, the result of a call is what it promises exactly when the
call is refused or its value can be stored. -/
theorem reported_iff (types : List (AclType ρ τ δ)) (earlier : List AclCall) (c : AclCall) :
    c.Reported types (aclRun types [] earlier) ↔
      c.Refused types (aclRun types [] earlier) ∨ c.Storable types (aclRun types [] earlier) := by
  have hfit := namesFit_run types earlier
  generalize aclRun types [] earlier = specs at hfit
  by_cases hrefused : c.Refused types specs
  · have hret := (refused_iff types specs c).mpr hrefused
    simp [Reported, hret, hrefused]
  have hret : (aclAddData types specs c).1 = true := by
    by_contra h
    exact hrefused ((refused_iff types specs c).mp (by simpa using h))
  simp only [hrefused, false_or]
  constructor
  · rintro ⟨hsuccess, -⟩
    obtain ⟨x, hvalue, hall⟩ := hsuccess hret
    obtain ⟨spec, hsearch, htype, hx, -⟩ := hall []
    exact storable_of_stored hfit hrefused hvalue ⟨spec, hsearch, htype, hx⟩
  · intro hstore
    obtain ⟨x, hvalue, hstored⟩ := stored_of_storable hfit hrefused hstore
    refine ⟨fun _ => ⟨x, hvalue, fun later => ?_⟩, fun hnone => by simp [hvalue] at hnone⟩
    obtain ⟨spec, hsearch, htype, hx⟩ := hstored.run later
    refine ⟨spec, hsearch, htype, hx, fun type req testData hget htest hequal => ?_⟩
    have hcheck : specDataCheck type spec testData = true := any_eq_true.mpr ⟨x, hx, hequal⟩
    simp [requestMatchSpecslist, hget, htest, hcheck]

end AclCall

/-- The type `src` of `acl.c`: the address of the client is compared. -/
def aclTcpSrc (ciInetAton : Family → List UInt8 → Option InAddr) : AclType SockAddr SockAddr CiIp where
  name := bytes "src"
  getTestData := fun client _ => some client
  dup := ipDup ciInetAton
  equal := fun ip client => ipSockaddrEqual ip (some client)

/-- The network `10.0.0.0/24`, whose mask `inet_pton` does not read, is reported as added. The list
is empty and matches no client. -/
theorem unread_value_reported :
    let pton : Family → List UInt8 → Option InAddr := fun _ text =>
      if text = bytes "10.0.0.0" then some ⟨0x0A000000, 0, 0, 0⟩ else none
    let c : AclCall := ⟨bytes "LOCALNET", bytes "src", bytes "10.0.0.0/24", {}⟩
    c.value [aclTcpSrc pton] = none ∧
      aclAddData [aclTcpSrc pton] [] c = (true, [⟨bytes "LOCALNET", 0, none, []⟩]) ∧
      requestMatchSpecslist [aclTcpSrc pton] ⟨.inet, ⟨0x0A000000, 0, 0, 0⟩⟩
        [(⟨bytes "LOCALNET", 0, none, []⟩, false)] = false := by
  decide +kernel

end CIcap
