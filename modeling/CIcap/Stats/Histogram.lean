import CIcap.Lib.Machine
import Mathlib.Data.UInt

/-! # Histograms

A histogram of `stats.c` is registered with a number of bins and a range and is then laid out in
the memory that all children share. An update adds one to the bin of its value, or to the bin
`other` for a value outside the range. The four kinds of histograms differ in how they choose the
bin only.

The linear and the logarithmic kind compute the bin as `floor(step * x + 1.0)` and
`floor(step * log(x) + 1.0)` in floating point. What they compute is a parameter here, so that
what is proved holds for whatever rounding gives.
-/

namespace CIcap

open List

/-- `ci_histo_type_t`, with the data that the update of the kind reads. -/
inductive HistoKind
  | linear (bin : UInt64 → Nat)
  | log (bin : UInt64 → Nat)
  | enum
  | customBins (bins : List UInt64)

/-- `ci_stat_histo_spec_t`. -/
structure HistoSpec where
  items : Nat
  kind : HistoKind
  min : UInt64
  max : UInt64

namespace HistoSpec

/-- `ci_stat_histo_register`: no more bins than values in the range. -/
def register (items : Nat) (kind : HistoKind) (min max : UInt64) : HistoSpec :=
  ⟨if (max - min).toNat < items then (max - min).toNat else items, kind, min, max⟩

/-- `ci_stat_histo_create`. -/
def create (items : Nat) (bin : UInt64 → Nat) (min max : UInt64) : HistoSpec :=
  register items (.linear bin) min max

/-- `ci_stat_histo_create_log`. -/
def createLog (items : Nat) (bin : UInt64 → Nat) (min max : UInt64) : HistoSpec :=
  register items (.log bin) min max

/-- `ci_stat_histo_create_enum`. -/
def createEnum (items : Nat) : HistoSpec := register items .enum 0 (UInt64.ofNat items)

/-- `ci_stat_histo_create_custom_bins`, `none` where the order of the bins fails its assertion. -/
def createCustomBins (first : UInt64) (bins : List UInt64) : Option HistoSpec :=
  if (first :: bins).IsChain (· < ·) then
    some (register (bins.length + 1) (.customBins (first :: bins)) first
      ((first :: bins).getLast (cons_ne_nil _ _)))
  else none

/-- The four ways to register a histogram. -/
inductive Created : HistoSpec → Prop
  | linear (items : Nat) (bin : UInt64 → Nat) (min max : UInt64) :
      Created (create items bin min max)
  | log (items : Nat) (bin : UInt64 → Nat) (min max : UInt64) :
      Created (createLog items bin min max)
  | enum (items : Nat) : Created (createEnum items)
  | customBins (first : UInt64) (bins : List UInt64) (s : HistoSpec)
      (h : createCustomBins first bins = some s) : Created s

/-- The bin of a value, `none` for the bin `other`: the four update functions up to the write. -/
def pos (s : HistoSpec) (value : UInt64) : Option Nat :=
  match s.kind with
  | .linear bin | .log bin =>
    if value ≤ s.min then some 0
    else if s.items ≤ bin (value - s.min) then none
    else some (bin (value - s.min))
  | .enum => if s.max ≤ value then none else some value.toNat
  | .customBins bins =>
    if s.max ≤ value then none
    else some ((bins.take s.items).findIdx fun b => decide (value ≤ b))

end HistoSpec

/-- `ci_stat_histogram_t`. -/
structure Histogram where
  header : HistoSpec
  other : UInt64
  bins : List UInt64

namespace Histogram

/-- A histogram of fresh shared memory after `ci_stat_histo_mem_initialize`. -/
def new (s : HistoSpec) : Histogram := ⟨s, 0, replicate s.items 0⟩

/-- `ci_stat_histo_mem_initialize` on a histogram that is in use: the bins are cleared and the bin
`other` is not. -/
def memInitialize (h : Histogram) : Histogram :=
  { h with bins := replicate h.header.items 0 }

/-- `ci_stat_histo_update`; `none` is a write behind the bins. -/
def update (h : Histogram) (value : UInt64) : Option Histogram :=
  match h.header.pos value with
  | none => some { h with other := h.other + 1 }
  | some i => if i < h.bins.length then some { h with bins := h.bins.modify i (· + 1) } else none

def total (h : Histogram) : UInt64 := h.bins.sum + h.other

end Histogram

/-! ## The bin of a value -/

theorem UInt64.toNat_add_le_of_isChain {l : List UInt64} (h : l.IsChain (· < ·)) {i j : Nat}
    (hij : i ≤ j) (hj : j < l.length) : l[i].toNat + (j - i) ≤ l[j].toNat := by
  induction j, hij using Nat.le_induction with
  | base => simp
  | succ j hij ih =>
    have hlt := isChain_iff_getElem.mp h j hj
    have hprev := ih (by omega)
    have := UInt64.lt_iff_toNat_lt.mp hlt
    omega

namespace HistoSpec

section CustomBins

variable {first : UInt64} {bins : List UInt64} {s : HistoSpec} {value : UInt64}
  (hs : createCustomBins first bins = some s)
include hs

/-- A histogram with custom bins: its range ends with the last one, and the bins are not more than the
values in the range. -/
theorem customBins_spec : (first :: bins).IsChain (· < ·) ∧ s.kind = .customBins (first :: bins) ∧
    (s.max = (first :: bins)[bins.length] ∧ first.toNat + bins.length ≤ s.max.toNat) ∧
    s.items = Min.min (s.max.toNat - first.toNat) (bins.length + 1) := by
  unfold createCustomBins at hs
  split at hs
  · rename_i hchain
    have hmax : s.max = (first :: bins)[bins.length] := by
      rw [← Option.some.inj hs]
      exact getLast_eq_getElem _
    have hfar := UInt64.toNat_add_le_of_isChain hchain (Nat.zero_le bins.length) (by simp)
    rw [← hmax] at hfar
    have hsub : (s.max - first).toNat = s.max.toNat - first.toNat :=
      UInt64.toNat_sub_of_le _ _ (UInt64.le_iff_toNat_le.mpr ((Nat.le_add_right _ _).trans hfar))
    refine ⟨hchain, by rw [← Option.some.inj hs]; rfl, ⟨hmax, hfar⟩, ?_⟩
    have hitems : s.items = if (s.max - first).toNat < bins.length + 1 then (s.max - first).toNat
        else bins.length + 1 := by
      rw [← Option.some.inj hs]
      rfl
    rw [hitems]
    split <;> omega
  · cases hs

/-- The custom bins reach up to the range: behind the bins that were cut off in the registration
there is only the end of the range itself. -/
theorem findIdx_customBins (hi : 0 < s.items) (hv : value < s.max) :
    (first :: bins).findIdx (fun b => decide (value ≤ b)) < s.items := by
  obtain ⟨hchain, -, ⟨hmax, hfar⟩, hitems⟩ := customBins_spec hs
  have hvn := UInt64.lt_iff_toNat_lt.mp hv
  have hk : s.items - 1 < (first :: bins).length := by simp; omega
  -- the last bin that is kept is not below the value
  have hge : value ≤ (first :: bins)[s.items - 1] := by
    rw [UInt64.le_iff_toNat_le]
    rcases Nat.lt_or_ge (s.max.toNat - first.toNat) (bins.length + 1) with hcut | hcut
    · have hat := UInt64.toNat_add_le_of_isChain hchain (Nat.zero_le (s.items - 1)) hk
      have hfirst : (first :: bins)[0] = first := rfl
      rw [hfirst] at hat
      omega
    · have hlast : s.items - 1 = bins.length := by omega
      simp only [hlast, ← hmax]
      omega
  calc (first :: bins).findIdx (fun b => decide (value ≤ b)) ≤ s.items - 1 := by
        by_contra hlt
        exact absurd hge (by simpa using not_of_lt_findIdx (Nat.lt_of_not_le hlt))
    _ < s.items := by omega

end CustomBins

/-- A histogram that was registered with a bin has the bin of every value. -/
theorem Created.pos_lt {s : HistoSpec} (h : s.Created) (hi : 0 < s.items) {value : UInt64} {i : Nat}
    (hp : s.pos value = some i) : i < s.items := by
  have hfloor : ∀ bin : UInt64 → Nat, (if value ≤ s.min then some 0
      else if s.items ≤ bin (value - s.min) then none else some (bin (value - s.min))) = some i →
      i < s.items := by
    intro bin hb
    split at hb
    · cases hb
      exact hi
    · split at hb
      · cases hb
      · cases hb
        omega
  cases h with
  | linear items bin min max | log items bin min max => exact hfloor bin hp
  | enum items =>
    have hmax : (createEnum items).max = UInt64.ofNat items := rfl
    have hle : (UInt64.ofNat items).toNat ≤ items := by
      exact Nat.mod_le _ _
    have hitems : (createEnum items).items = (UInt64.ofNat items).toNat := by
      simp only [createEnum, register]
      rw [UInt64.sub_zero]
      split <;> omega
    change (if _ ≤ value then none else some value.toNat) = some i at hp
    split at hp
    · cases hp
    · rename_i hv
      cases hp
      rw [hmax, UInt64.le_iff_toNat_le] at hv
      omega
  | customBins first bins s hs =>
    obtain ⟨-, hkind, -, -⟩ := customBins_spec hs
    unfold pos at hp
    rw [hkind] at hp
    simp only at hp
    split at hp
    · cases hp
    · rename_i hv
      cases hp
      have hlt := findIdx_customBins hs hi (UInt64.not_le.mp hv)
      rw [findIdx_take]
      omega

end HistoSpec

/-! ## What an update counts -/

namespace Histogram

theorem sum_modify_succ (l : List UInt64) (i : Nat) (hi : i < l.length) :
    (l.modify i (· + 1)).sum = l.sum + 1 := by
  induction l generalizing i with
  | nil => simp at hi
  | cons x xs ih =>
    cases i with
    | zero =>
      rw [modify_zero_cons, sum_cons, sum_cons]
      ac_rfl
    | succ i =>
      rw [modify_succ_cons, sum_cons, sum_cons, ih i (by simpa using hi)]
      ac_rfl

theorem sum_replicate_zero (n : Nat) : (replicate n (0 : UInt64)).sum = 0 := by
  induction n with
  | zero => rfl
  | succ n ih => rw [replicate_succ, sum_cons, ih]; rfl

@[simp] theorem total_new (s : HistoSpec) : (new s).total = 0 := by
  show (replicate s.items (0 : UInt64)).sum + 0 = 0
  rw [sum_replicate_zero]
  rfl

/-- Laying a histogram out again loses what its bins have counted. -/
theorem total_memInitialize (h : Histogram) : h.memInitialize.total = h.other := by
  show (replicate h.header.items (0 : UInt64)).sum + h.other = h.other
  rw [sum_replicate_zero, UInt64.zero_add]

/-- An update that stays inside the histogram counts one. -/
theorem total_update {h h' : Histogram} {value : UInt64} (hu : h.update value = some h') :
    h'.total = h.total + 1 ∧ h'.header = h.header ∧ h'.bins.length = h.bins.length := by
  unfold update at hu
  split at hu
  · cases hu
    refine ⟨?_, rfl, rfl⟩
    show h.bins.sum + (h.other + 1) = h.bins.sum + h.other + 1
    ac_rfl
  split at hu
  · rename_i i _ hi
    cases hu
    refine ⟨?_, rfl, length_modify ..⟩
    show (h.bins.modify i (· + 1)).sum + h.other = h.bins.sum + h.other + 1
    rw [sum_modify_succ _ _ hi]
    ac_rfl
  · cases hu

/-- For a registered histogram only one without bins can be left by an update. -/
theorem update_isSome_iff {h : Histogram} (hc : h.header.Created)
    (hlen : h.bins.length = h.header.items) (value : UInt64) :
    (h.update value).isSome ↔ (h.header.pos value = none ∨ 0 < h.header.items) := by
  unfold update
  cases hp : h.header.pos value with
  | none => simp
  | some i =>
    simp only [reduceCtorEq, false_or]
    constructor
    · intro hs
      split at hs
      · omega
      · cases hs
    · intro hi
      rw [if_pos (by rw [hlen]; exact hc.pos_lt hi hp)]
      rfl

/-! ## Counting in custom bins -/

def step (h : Histogram) (value : UInt64) : Histogram := (h.update value).getD h

/-- The value is counted in the first bin whose maximum is at least the value, which the histogram has, or
in `other` where there is no such bin. -/
def CountsRight (maxima : List UInt64) (h : Histogram) (value : UInt64) : Prop :=
  let i := maxima.findIdx fun b => decide (value ≤ b)
  if i < maxima.length then
    i < h.bins.length ∧ h.update value = some { h with bins := h.bins.modify i (· + 1) }
  else h.update value = some { h with other := h.other + 1 }

variable {first : UInt64} {bins : List UInt64} {s : HistoSpec} {h : Histogram}

theorem CountsRight.update {maxima : List UInt64} {value : UInt64} (hr : h.CountsRight maxima value) :
    h.update value = some (h.step value) := by
  unfold CountsRight at hr
  unfold step
  dsimp only at hr
  split at hr
  · rw [hr.2]
    rfl
  · rw [hr]
    rfl

variable (hs : HistoSpec.createCustomBins first bins = some s)
include hs

theorem countsRight_iff (hh : h.header = s) (hlen : h.bins.length = s.items) (value : UInt64) :
    h.CountsRight (first :: bins) value ↔ value ≠ s.max ∧ (bins ≠ [] ∨ s.max < value) := by
  obtain ⟨hchain, hkind, ⟨hmax, hfar⟩, hitems⟩ := HistoSpec.customBins_spec hs
  have hbin : (first :: bins).findIdx (fun b => decide (value ≤ b)) < (first :: bins).length ↔
      value ≤ s.max := by
    rw [findIdx_lt_length]
    constructor
    · rintro ⟨b, hb, hle⟩
      obtain ⟨i, hi, rfl⟩ := getElem_of_mem hb
      have hlast := UInt64.toNat_add_le_of_isChain hchain (Nat.le_of_lt_succ hi) (by simp)
      rw [← hmax] at hlast
      have hle' := UInt64.le_iff_toNat_le.mp (of_decide_eq_true hle)
      exact UInt64.le_iff_toNat_le.mpr (by omega)
    · intro hle
      exact ⟨_, getElem_mem (by simp), decide_eq_true (hmax ▸ hle)⟩
  have hnone : s.items = 0 ↔ bins = [] := by
    rw [← length_eq_zero_iff]
    constructor
    · omega
    · intro h0
      have : s.max = first := by simp only [hmax, h0]; rfl
      rw [this] at hitems
      omega
  unfold CountsRight update HistoSpec.pos
  simp only [hbin, hh, hkind, hlen]
  by_cases heq : value = s.max
  · simp [heq]
  by_cases hle : s.max ≤ value
  · have hlt : s.max < value := UInt64.lt_of_le_of_ne hle (Ne.symm heq)
    simp [heq, hle, hlt]
  · have hv := UInt64.not_le.mp hle
    have hv' : ¬ s.max < value := fun h => hle (UInt64.le_of_lt h)
    rw [if_pos (UInt64.le_of_lt hv)]
    by_cases h0 : s.items = 0
    · simp [h0, hnone.mp h0, hv']
    · have hlt := HistoSpec.findIdx_customBins hs (Nat.pos_of_ne_zero h0) hv
      simp [mt hnone.mpr h0, heq, hle, hlt, Nat.min_eq_right hlt.le]

/-- **Custom bins.** All values of a sequence are counted in the first bin whose maximum is at least the
value, or in `other` behind the last one, inside the histogram, and make up its total, exactly if none is
the last maximum itself and a single bin is exceeded by all. -/
theorem custom_bins_counted_iff (values : List UInt64) :
    (Machine.AllSteps step (CountsRight (first :: bins)) (new s) values ∧
      (Machine.run step (new s) values).total = UInt64.ofNat values.length) ↔
      ∀ v ∈ values, v ≠ s.max ∧ (bins ≠ [] ∨ s.max < v) := by
  have hrun : ∀ h : Histogram, h.header = s → h.bins.length = s.items →
      (Machine.AllSteps step (CountsRight (first :: bins)) h values ∧
        (Machine.run step h values).total = h.total + UInt64.ofNat values.length ↔
        ∀ v ∈ values, v ≠ s.max ∧ (bins ≠ [] ∨ s.max < v)) := by
    induction values with
    | nil => simp [Machine.AllSteps, Machine.run]
    | cons v vs ih =>
      intro h hh hlen
      rw [forall_mem_cons, ← countsRight_iff hs hh hlen v, Machine.AllSteps, and_assoc]
      refine and_congr_right fun hr => ?_
      obtain ⟨htotal, hh', hlen'⟩ := total_update hr.update
      rw [← ih _ (hh'.trans hh) (hlen'.trans hlen), htotal, length_cons, UInt64.ofNat_add,
        UInt64.add_comm _ (UInt64.ofNat 1), ← UInt64.add_assoc]
      rfl
  have h := hrun (new s) rfl length_replicate
  rwa [total_new, UInt64.zero_add] at h

omit hs

theorem custom_bins_counted_four : ∃ s, HistoSpec.createCustomBins 2 [4, 8] = some s ∧
    Machine.AllSteps step (CountsRight [2, 4, 8]) (new s) [1, 4, 5, 9] ∧
    (Machine.run step (new s) [1, 4, 5, 9]).total = 4 :=
  ⟨_, rfl, (custom_bins_counted_iff rfl [1, 4, 5, 9]).mpr (by
    rw [forall_mem_cons, forall_mem_cons, forall_mem_cons, forall_mem_singleton]; decide)⟩

/-- A value that is the last maximum is counted as `other`, and a histogram with one bin is given none. -/
theorem custom_bins_not_counted :
    (∃ s, HistoSpec.createCustomBins 2 [4, 8] = some s ∧ ((new s).step 8).bins = [0, 0, 0] ∧
      ((new s).step 8).other = 1) ∧
    ∃ s, HistoSpec.createCustomBins 5 [] = some s ∧ (new s).bins = [] ∧ ((new s).update 3).isNone :=
  ⟨⟨_, rfl, by decide, by decide⟩, _, rfl, by decide, by decide⟩

end Histogram

end CIcap
