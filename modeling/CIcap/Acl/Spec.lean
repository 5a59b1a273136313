import CIcap.Acl.Ip
import CIcap.Lib.Machine

/-! # Access lists

The list of access lists of `acl.c`: `ci_acl_add_data` adds a value to the access list of a name,
which it makes when there is none, and a request is matched against the values of a list. A type of
access lists has operations on `void` pointers: `δ` are the values it reads from a text, `τ` the data
it takes from a request, and `ρ` are the requests. The types are those of the type list and stay
where they are; a pointer to a type is its place in the list.
-/

namespace CIcap

open CText

/-- `MAX_NAME_LEN` -/
def maxNameLen : Nat := 31

/-- `ci_acl_type_t` with the operations `dup` and `equal` of its `ci_type_ops_t`. -/
structure AclType (ρ τ δ : Type) where
  name : List UInt8
  getTestData : ρ → Option (List UInt8) → Option τ
  dup : List UInt8 → Option δ
  equal : δ → τ → Bool

/-- `ci_acl_spec_t` -/
structure AclSpec (δ : Type) where
  name : List UInt8
  type : Nat
  parameter : Option (List UInt8)
  data : List δ
deriving DecidableEq

/-- Which allocations of a call succeed. -/
structure AclMemory where
  type : Bool := true
  spec : Bool := true
  parameter : Bool := true
  data : Bool := true

/-- The arguments of `ci_acl_add_data`. -/
structure AclCall where
  name : List UInt8
  type : List UInt8
  data : List UInt8
  memory : AclMemory

variable {ρ τ δ : Type}

/-! ## Definitions -/

/-- `ci_acl_typelist_search` -/
def aclTypelistSearch (types : List (AclType ρ τ δ)) (name : List UInt8) : Option Nat :=
  types.findIdx? (fun t => t.name == name)

/-- `ci_acl_spec_search`, `ci_acl_search` -/
def aclSpecSearch (specs : List (AclSpec δ)) (name : List UInt8) : Option (AclSpec δ) :=
  specs.find? (fun spec => spec.name == name)

/-- The name of a type and its parameter between braces. -/
def splitType (type : List UInt8) : List UInt8 × Option (List UInt8) :=
  if type.contains 123 then
    (type.takeWhile (· != 123), some (((type.dropWhile (· != 123)).drop 1).takeWhile (· != 125)))
  else (type, none)

/-- `ci_acl_spec_new`, before the list is linked to the end of the others. -/
def aclSpecNew (types : List (AclType ρ τ δ)) (memory : AclMemory) (name type : List UInt8)
    (param : Option (List UInt8)) : Option (AclSpec δ) :=
  match aclTypelistSearch types type with
  | none => none
  | some aclType =>
    if memory.spec = false then none
    else if param.isSome ∧ memory.parameter = false then none
    else some ⟨name.take maxNameLen, aclType, param, []⟩

/-- `ci_acl_spec_new_data`; `none` is the null pointer. -/
def aclSpecNewData (types : List (AclType ρ τ δ)) (memory : AclMemory) (spec : AclSpec δ)
    (val : List UInt8) : Option (AclSpec δ) :=
  match types[spec.type]?.bind (fun ops => ops.dup val) with
  | none => none
  | some data => if memory.data then some { spec with data := spec.data ++ [data] } else none

/-- The access list that a search finds is changed in place. -/
def updateSpec (name : List UInt8) (f : AclSpec δ → AclSpec δ) : List (AclSpec δ) → List (AclSpec δ)
  | [] => []
  | spec :: specs => if spec.name == name then f spec :: specs else spec :: updateSpec name f specs

/-- `ci_acl_add_data`: its result and the access lists. What `ci_acl_spec_new_data` returns is not
looked at. -/
def aclAddData (types : List (AclType ρ τ δ)) (specs : List (AclSpec δ)) (c : AclCall) :
    Bool × List (AclSpec δ) :=
  if c.memory.type = false then (false, specs)
  else
    let (aclType, param) := splitType c.type
    match aclSpecSearch specs c.name with
    | some spec =>
      if aclTypelistSearch types aclType ≠ some spec.type then (false, specs)
      else
        (true, updateSpec c.name (fun s => (aclSpecNewData types c.memory s c.data).getD s) specs)
    | none =>
      match aclSpecNew types c.memory c.name aclType param with
      | none => (false, specs)
      | some spec => (true, specs ++ [(aclSpecNewData types c.memory spec c.data).getD spec])

def aclRun (types : List (AclType ρ τ δ)) : List (AclSpec δ) → List AclCall → List (AclSpec δ) :=
  Machine.run (fun specs c => (aclAddData types specs c).2)

/-! ## Matching -/

/-- `spec_data_check` -/
def specDataCheck (ops : AclType ρ τ δ) (spec : AclSpec δ) (reqRawData : τ) : Bool :=
  spec.data.any (fun data => ops.equal data reqRawData)

/-- `request_match_specslist`; each access list comes with its `negate`. -/
def requestMatchSpecslist (types : List (AclType ρ τ δ)) (req : ρ) :
    List (AclSpec δ × Bool) → Bool
  | [] => true
  | (spec, negate) :: specsList =>
    match types[spec.type]? with
    | none => false
    | some type =>
      match type.getTestData req spec.parameter with
      | none => false
      | some testData =>
        if specDataCheck type spec testData = negate then false
        else requestMatchSpecslist types req specsList

variable {types : List (AclType ρ τ δ)}

/-! ## What a definition does -/

def AclCall.value (types : List (AclType ρ τ δ)) (c : AclCall) : Option δ :=
  ((aclTypelistSearch types (splitType c.type).1).bind (fun i => types[i]?)).bind
    (fun ops => ops.dup c.data)

/-- The call is refused: there is no memory for the copy of the type or for a new access list, the
access list is of another type, or there is no such type. -/
def AclCall.Refused (types : List (AclType ρ τ δ)) (specs : List (AclSpec δ)) (c : AclCall) : Prop :=
  c.memory.type = false ∨
    match aclSpecSearch specs c.name with
    | some spec => aclTypelistSearch types (splitType c.type).1 ≠ some spec.type
    | none => aclSpecNew types c.memory c.name (splitType c.type).1 (splitType c.type).2 = none

variable {specs : List (AclSpec δ)}

theorem addData_refused {c : AclCall} (h : c.Refused types specs) :
    aclAddData types specs c = (false, specs) := by
  unfold aclAddData
  by_cases hmem : c.memory.type = false
  · rw [if_pos hmem]
  · have hrest := h.resolve_left hmem
    cases hsearch : aclSpecSearch specs c.name with
    | some spec | none =>
      simp only [hsearch] at hrest
      simp [hrest]

/-- An accepted call changes the access list of its name, or adds one at the end. -/
theorem addData_accepted {c : AclCall} (h : ¬ c.Refused types specs) :
    (∃ spec, aclSpecSearch specs c.name = some spec ∧
      aclTypelistSearch types (splitType c.type).1 = some spec.type ∧
      aclAddData types specs c = (true,
        updateSpec c.name (fun s => (aclSpecNewData types c.memory s c.data).getD s) specs)) ∨
    ∃ i param, aclSpecSearch specs c.name = none ∧
      aclTypelistSearch types (splitType c.type).1 = some i ∧
      aclAddData types specs c = (true, specs ++
        [(aclSpecNewData types c.memory ⟨c.name.take maxNameLen, i, param, []⟩ c.data).getD
          ⟨c.name.take maxNameLen, i, param, []⟩]) := by
  unfold AclCall.Refused at h
  rw [not_or] at h
  obtain ⟨hmem, hrest⟩ := h
  cases hsearch : aclSpecSearch specs c.name with
  | some spec =>
    simp only [hsearch, not_not] at hrest
    refine .inl ⟨spec, rfl, hrest, ?_⟩
    rw [aclAddData, if_neg hmem]
    simp only [hsearch, hrest, ne_eq, not_true_eq_false, if_false]
  | none =>
    simp only [hsearch] at hrest
    obtain ⟨spec, hspec⟩ := Option.ne_none_iff_exists'.mp hrest
    have hnew := hspec
    unfold aclSpecNew at hnew
    cases htype : aclTypelistSearch types (splitType c.type).1 with
    | none => simp [htype] at hnew
    | some i =>
      simp only [htype] at hnew
      split at hnew
      · cases hnew
      · split at hnew
        · cases hnew
        · cases hnew
          refine .inr ⟨i, (splitType c.type).2, rfl, rfl, ?_⟩
          rw [aclAddData, if_neg hmem]
          simp only [hsearch, hspec]

theorem refused_iff (types : List (AclType ρ τ δ)) (specs : List (AclSpec δ)) (c : AclCall) :
    (aclAddData types specs c).1 = false ↔ c.Refused types specs := by
  constructor
  · intro h
    by_contra hacc
    rcases addData_accepted hacc with ⟨spec, -, -, hadd⟩ | ⟨i, param, -, -, hadd⟩
    all_goals simp [hadd] at h
  · intro h
    rw [addData_refused h]

end CIcap
