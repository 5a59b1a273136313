import CIcap.Header.Edit
import CIcap.Lib.Machine

/-! # Header lists as lists of strings

The calls that make and edit header lists, over any number of lists and any outcomes of the
allocations, against lists of strings. A call of `ci_headers_clone` without memory for the copy
and one that adds a list to itself end in a fault; every other call refines its counterpart.
-/

namespace CIcap

open CText Segments List
open Headers (named)

/-- A call, with the lists it is about and the outcomes of its allocations. -/
inductive HeaderCall where
  | create (a : Allocator)
  | add (i : Nat) (line : List UInt8) (a : Allocator)
  | addHeaders (i j : Nat) (a : Allocator)
  | remove (i : Nat) (name : List UInt8) (a : Allocator)
  | reset (i : Nat)
  | clone (i : Nat) (a : Allocator)
  | pack (i : Nat) (a : Allocator)

/-! ## The buffers -/

namespace HeaderStore

/-- A call on the list `i`; there is none without the list. -/
def onList (lists : List HeaderBuf) (i : Nat) (f : HeaderBuf → Except Fault (Bool × HeaderBuf)) :
    Except Fault (Bool × List HeaderBuf) :=
  match lists[i]? with
  | none => .ok (false, lists)
  | some h => do
      let (ok, h) ← f h
      return (ok, lists.set i h)

def call (lists : List HeaderBuf) : HeaderCall → Except Fault (Bool × List HeaderBuf)
  | .create a => do
      match ← HeaderBuf.create a with
      | none => return (false, lists)
      | some h => return (true, lists ++ [h])
  | .add i line a => onList lists i fun h => do
      let (p, h) ← h.add a line
      return (p.isSome, h)
  | .addHeaders i j a => onList lists i fun h =>
    if i = j then h.addSelf a
    else
      match lists[j]? with
      | none => .ok (false, h)
      | some hs => h.addHeaders a hs
  | .remove i name a => onList lists i fun h => h.remove a name
  | .reset i => onList lists i fun h => .ok (true, h.reset)
  | .clone i a =>
    match lists[i]? with
    | none => .ok (false, lists)
    | some h => do
        let c ← h.clone a
        return (true, lists ++ [c])
  | .pack i a => onList lists i fun h => do
      let h ← h.pack a
      return (true, h)

/-- The lists and the results of the calls so far, or a fault. -/
abbrev State := Except Fault (List HeaderBuf × List Bool)

def step (s : State) (c : HeaderCall) : State := do
  let (lists, results) ← s
  let (ok, lists) ← call lists c
  return (lists, results ++ [ok])

end HeaderStore

/-! ## The lists of strings -/

/-- What a header list is for: strings, and whether they are packed. -/
structure Strings where
  lines : List (List UInt8) := []
  packed : Bool := false
  deriving DecidableEq

namespace Strings

/-- The list `i` is changed. -/
def onList (ss : List Strings) (i : Nat) (f : Strings → Strings) : List Strings :=
  match ss[i]? with
  | none => ss
  | some s => ss.set i (f s)

/-- The lists after a call with the given result. A call that fails changes nothing. -/
def after (ss : List Strings) : HeaderCall → Bool → List Strings
  | .create _, true => ss ++ [{}]
  | .add i line _, true => onList ss i fun s => { s with lines := s.lines ++ [line] }
  | .addHeaders i j _, true => onList ss i fun s =>
    { s with lines := s.lines ++ ((ss[j]?).map lines).getD [] }
  | .remove i name _, true => onList ss i fun s =>
    { s with lines := s.lines.eraseP (named name) }
  | .reset i, true => onList ss i fun _ => {}
  | .clone i _, true => ss ++ (ss[i]?).toList
  | .pack i _, true => onList ss i fun s => if s.lines = [] then s else { s with packed := true }
  | _, false => ss

/-- When a call succeeds and why it may fail. -/
def Explained (ss : List Strings) : HeaderCall → Bool → Prop
  | .create a, ok => ok = false → a.Fails
  | .add i _ a, ok => ∀ s, ss[i]? = some s →
      (ok = true → s.packed = false) ∧
      (ok = false → s.packed = true ∨ headerIndexLimit < s.lines.length + 1 ∨ a.Fails)
  | .addHeaders i j a, ok => ∀ s t, ss[i]? = some s → ss[j]? = some t →
      (ok = true → s.packed = false ∧ t.packed = false) ∧
      (ok = false → s.packed = true ∨ t.packed = true ∨
        headerIndexLimit < s.lines.length + t.lines.length ∨ a.Fails)
  | .remove i name _, ok => ∀ s, ss[i]? = some s →
      (ok = true ↔ s.packed = false ∧ ∃ line ∈ s.lines, named name line = true)
  | .reset i, ok => ∀ s, ss[i]? = some s → ok = true
  | .clone i _, ok => ∀ s, ss[i]? = some s → ok = true
  | .pack i _, ok => ∀ s, ss[i]? = some s → ok = true

/-- The lists after some calls with the given results. -/
inductive Run : List HeaderCall → List Bool → List Strings → Prop
  | nil : Run [] [] []
  | step {cs : List HeaderCall} {rs : List Bool} {ss : List Strings} (c : HeaderCall) (ok : Bool) :
      Run cs rs ss → Explained ss c ok → Run (cs ++ [c]) (rs ++ [ok]) (after ss c ok)

/-- The bytes of a list in its buffer: every line and its line end, and a blank line. -/
def bytes (s : Strings) : List UInt8 :=
  if s.lines = [] then []
  else s.lines.flatMap (· ++ [if s.packed then 13 else 0, 10]) ++ crlf

end Strings

/-- The buffer is the list of strings: it has its bytes, and every pointer of the index is at the
line of its own. -/
structure Represents (h : HeaderBuf) (s : Strings) : Prop where
  packed : h.packed = s.packed
  bytes : h.buf.take h.bufused = s.bytes
  count : h.headers.length = s.lines.length
  pointers : ∀ (k : Nat) (line : List UInt8), s.lines[k]? = some line → ∃ p rest,
    h.headers[k]? = some p ∧ h.addr ≤ p ∧
      h.buf.drop (p - h.addr) = line ++ (if s.packed then 13 else 0) :: rest

/-! ## One list -/

/-- The strings as the lines of a header list. -/
def Strings.headers (s : Strings) (size : Nat) : Headers :=
  { lines := s.lines.map (⟨·, true⟩), size := size, packed := s.packed }

/-- The buffer holds the strings, with an index that has grown in steps of `HEADERSTARTSIZE`. -/
def Kept (h : HeaderBuf) (s : Strings) : Prop :=
  ∃ k, Holds h (s.headers (headerStartSize * (k + 1)))

namespace Kept

variable {h : HeaderBuf} {s : Strings}

theorem of_holds {size : Nat} {k : Nat} {hs : Headers} (hsize : hs.size = headerStartSize * (k + 1))
    (hgrows : hs.GrowsTo size) (hh : Holds h (s.headers size)) : Kept h s := by
  obtain ⟨j, hj⟩ := hgrows
  refine ⟨k + j, ?_⟩
  have heq : size = headerStartSize * (k + j + 1) := by
    rw [hj, hsize, ← Nat.mul_add]
    congr 1
    omega
  rwa [heq] at hh

/-- The index is refused more entries only beyond its limit. -/
theorem limit {k n : Nat} (hnone : (s.headers (headerStartSize * (k + 1))).checkSpace n = none) :
    headerIndexLimit < s.lines.length + n := by
  unfold Headers.checkSpace headerStartSize headerIndexLimit at hnone
  unfold headerIndexLimit
  dsimp only [Strings.headers] at hnone
  rw [length_map] at hnone
  split_ifs at hnone
  omega

theorem represents (hk : Kept h s) : Represents h s := by
  obtain ⟨k, hh⟩ := hk
  generalize headerStartSize * (k + 1) = size at hh
  have hend : Headers.lineEnd s.packed true = [if s.packed then 13 else 0, 10] := by
    cases s.packed <;> rfl
  refine ⟨hh.packed, ?_, ?_, ?_⟩
  · rw [hh.used, Headers.buf, Strings.bytes]
    simp [Strings.headers, hend, flatMap_map]
  · rw [hh.headers_length]
    simp [Strings.headers]
  · intro k line hline
    have hk : k < s.lines.length := (List.getElem?_eq_some_iff.mp hline).1
    have hne : (s.headers size).lines ≠ [] := by
      intro hnil
      have hlen := congrArg length hnil
      simp only [Strings.headers, length_map, length_nil] at hlen
      omega
    obtain ⟨spare, hspare⟩ := hh.buf
    rw [Headers.buf_eq_segs hne, append_assoc] at hspare
    have hsegs : k < (s.headers size).segs.length := by simpa [Headers.segs, Strings.headers] using hk
    obtain ⟨p, hp, hdrop⟩ := drop_start hsegs (crlf ++ spare)
    rw [hspare, drop_eq_getElem_cons hsegs] at hdrop
    have hseg : (s.headers size).segs[k] = line ++ [if s.packed then 13 else 0, 10] := by
      have hget : (s.headers size).segs[k]? = some (line ++ [if s.packed then 13 else 0, 10]) := by
        simp [Headers.segs, Strings.headers, hline, Headers.lineBytes, hend]
      exact (List.getElem?_eq_some_iff.mp hget).2
    refine ⟨h.addr + p, 10 :: (((s.headers size).segs.drop (k + 1)).flatten ++ (crlf ++ spare)), ?_,
      by omega, ?_⟩
    · rw [hh.index, getElem?_map, hp]
      rfl
    · rw [Nat.add_sub_cancel_left, hdrop, hseg]
      simp

theorem create {a : Allocator} :
    ∃ r, HeaderBuf.create a = .ok r ∧ ((r = none ∧ a.Fails) ∨ ∃ h, r = some h ∧ Kept h {}) := by
  obtain ⟨r, hr, ⟨rfl, hnone⟩ | ⟨h, rfl, -, hh⟩⟩ :=
    Holds.create2 a (show 0 < headerStartSize by decide) (show 0 < headsBufSize by decide)
  · refine ⟨none, hr, .inl ⟨rfl, ?_⟩⟩
    by_contra hfails
    unfold Allocator.Fails at hfails
    push Not at hfails
    refine hnone ⟨by simpa using hfails.1, by simpa using hfails.2.1 headerStartSize, ?_⟩
    exact Option.isSome_iff_ne_none.mpr (hfails.2.2 headsBufSize)
  · exact ⟨some h, hr, .inr ⟨h, rfl, 0, hh⟩⟩

variable (hk : Kept h s)
include hk

theorem add (a : Allocator) {line : List UInt8} (hline : HeldText line) :
    ∃ p h', h.add a line = .ok (p, h') ∧
      ((p.isSome = true ∧ s.packed = false ∧ Kept h' { s with lines := s.lines ++ [line] }) ∨
        (p.isSome = false ∧ Kept h' s ∧
          (s.packed = true ∨ headerIndexLimit < s.lines.length + 1 ∨ a.Fails))) := by
  obtain ⟨k, hh⟩ := hk
  obtain ⟨p, h', hadd, ⟨hp, hpacked, size, hgrows, hh'⟩ | ⟨rfl, hwhy, size, hgrows, hh'⟩⟩ := hh.add a hline
  · refine ⟨p, h', hadd, .inl ⟨hp, hpacked, of_holds rfl hgrows ?_⟩⟩
    simpa [Strings.headers] using hh'
  · exact ⟨none, h', hadd, .inr ⟨rfl, of_holds rfl hgrows hh', hwhy.imp_right (Or.imp_left limit)⟩⟩

theorem addHeaders {h2 : HeaderBuf} {t : Strings} (hk2 : Kept h2 t) (a : Allocator) :
    ∃ ok h', h.addHeaders a h2 = .ok (ok, h') ∧ ((ok = true ∧ s.packed = false ∧ t.packed = false ∧
          Kept h' { s with lines := s.lines ++ t.lines }) ∨
        (ok = false ∧ Kept h' s ∧ (s.packed = true ∨ t.packed = true ∨
          headerIndexLimit < s.lines.length + t.lines.length ∨ a.Fails))) := by
  obtain ⟨k, hh⟩ := hk
  obtain ⟨k2, hh2⟩ := hk2
  obtain ⟨ok, h', hadd, ⟨hok, hp, hp2, size, hgrows, hh'⟩ | ⟨hok, hwhy, size, hgrows, hh'⟩⟩ :=
    hh.addHeaders a hh2
  · refine ⟨ok, h', hadd, .inl ⟨hok, hp, hp2, of_holds rfl hgrows ?_⟩⟩
    simpa [Strings.headers] using hh'
  · refine ⟨ok, h', hadd, .inr ⟨hok, of_holds rfl hgrows hh', ?_⟩⟩
    have hcount : (t.headers (headerStartSize * (k2 + 1))).lines.length = t.lines.length := by
      simp [Strings.headers]
    rw [hcount] at hwhy
    exact hwhy.imp_right (Or.imp_right (Or.imp_left limit))

variable (a : Allocator)
include a

theorem addSelf (hnil : h.headers = []) :
    ∃ ok h', h.addSelf a = .ok (ok, h') ∧ Kept h' s ∧ s.lines = [] ∧ (ok = true → s.packed = false) ∧
      (ok = false → s.packed = true ∨ headerIndexLimit < s.lines.length + s.lines.length ∨ a.Fails) := by
  obtain ⟨k, hh⟩ := hk
  have hne : (s.headers (headerStartSize * (k + 1))).lines = [] := hh.headers_eq_nil_iff.mp hnil
  have hlines : s.lines = [] := map_eq_nil_iff.mp hne
  obtain ⟨ok, h', hadd, hwhy, size, hgrows, hh'⟩ := hh.addSelf a hne
  refine ⟨ok, h', hadd, of_holds rfl hgrows hh', hlines, ?_, ?_⟩
  · rintro rfl
    rcases hwhy with ⟨-, hp⟩ | ⟨hfalse, -⟩
    · exact hp
    · cases hfalse
  · rintro rfl
    rcases hwhy with ⟨hfalse, -⟩ | ⟨-, hwhy⟩
    · cases hfalse
    · refine hwhy.imp_right (Or.imp_left fun hnone => ?_)
      have := limit hnone
      rw [hlines] at this ⊢
      exact this

theorem remove {name : List UInt8} (hname : 0 ∉ name) : ∃ ok h', h.remove a name = .ok (ok, h') ∧
      (ok = true ↔ s.packed = false ∧ ∃ line ∈ s.lines, named name line = true) ∧
      Kept h' (if ok then { s with lines := s.lines.eraseP (named name) } else s) := by
  obtain ⟨k, hh⟩ := hk
  obtain ⟨ok, h', hremove, hiff, size, hgrows, hh'⟩ := hh.remove a hname
  have hex : (∃ l ∈ (s.headers (headerStartSize * (k + 1))).lines, named name l.text = true) ↔
      ∃ line ∈ s.lines, named name line = true := by
    simp [Strings.headers]
  rw [hex] at hiff
  refine ⟨ok, h', hremove, hiff, of_holds rfl hgrows ?_⟩
  have herase : (s.lines.map (fun t => (⟨t, true⟩ : HeaderLine))).eraseP
      (fun l => named name l.text) =
      (s.lines.eraseP (named name)).map (fun t => (⟨t, true⟩ : HeaderLine)) := by
    rw [eraseP_map]
    rfl
  have hclosed : Headers.closeLast ((s.lines.eraseP (named name)).map
      (fun t => (⟨t, true⟩ : HeaderLine))) =
      (s.lines.eraseP (named name)).map (fun t => (⟨t, true⟩ : HeaderLine)) := by
    apply closeLast_of_closed
    intro l hl
    obtain ⟨t, -, rfl⟩ := mem_map.mp (mem_of_getLast? hl)
    rfl
  have hsame : ¬ ok = true →
      ({ (s.headers (headerStartSize * (k + 1))).remove name with size := size } : Headers) =
        s.headers size := by
    intro hno
    unfold Headers.remove Strings.headers
    split
    · rfl
    · rename_i hp
      rw [Bool.not_eq_true] at hp
      have hnone : ∀ line ∈ s.lines, ¬ named name line = true :=
        fun line hl hnm => hno (hiff.mpr ⟨hp, line, hl, hnm⟩)
      rw [herase, hclosed, eraseP_of_forall_not hnone]
  cases ok with
  | true =>
    have hp : s.packed = false := (hiff.mp rfl).1
    have hrem : ({ (s.headers (headerStartSize * (k + 1))).remove name with size := size } : Headers) =
        Strings.headers { s with lines := s.lines.eraseP (named name) } size := by
      unfold Headers.remove Strings.headers
      rw [if_neg (by dsimp only; rw [hp]; decide)]
      rw [herase, hclosed]
    rwa [hrem] at hh'
  | false =>
    rwa [hsame (by decide)] at hh'

theorem pack :
    ∃ h', h.pack a = .ok h' ∧ Kept h' (if s.lines = [] then s else { s with packed := true }) := by
  obtain ⟨k, hh⟩ := hk
  obtain ⟨h', hpack, size, hgrows, hh'⟩ := hh.pack a
  refine ⟨h', hpack, of_holds rfl hgrows ?_⟩
  unfold Headers.pack at hh'
  by_cases hne : s.lines = []
  · rw [if_pos (by simp [Strings.headers, hne])] at hh'
    rw [if_pos hne]
    exact hh'
  · rw [if_neg (by simpa [Strings.headers] using hne)] at hh'
    rw [if_neg hne]
    exact hh'

end Kept

/-! ## Runs -/

/-- A header line that can be added, a name that can be looked for: the strings of a call are
C strings, and the lines are nonempty and have no line end in them. -/
def HeaderCall.Clean : HeaderCall → Prop
  | .add _ line _ => line ≠ [] ∧ ∀ b ∈ line, b ≠ 13 ∧ b ≠ 10 ∧ b ≠ 0
  | .remove _ name _ => 0 ∉ name
  | _ => True

/-- There is memory for a copy, and a list that is added to itself is empty. -/
def HeaderCall.Safe (s : HeaderStore.State) : HeaderCall → Prop
  | .clone i a => ∀ lists results h, s = .ok (lists, results) → lists[i]? = some h → h.CanClone a
  | .addHeaders i j _ => i = j →
      ∀ lists results h, s = .ok (lists, results) → lists[i]? = some h → h.headers = []
  | _ => True

section Lists

variable {α β : Type} {R : α → β → Prop} {as : List α} {bs : List β} (h : List.Forall₂ R as bs)
include h

theorem forall₂_getElem? (i : Nat) :
    (as[i]? = none ∧ bs[i]? = none) ∨ ∃ a b, as[i]? = some a ∧ bs[i]? = some b ∧ R a b := by
  induction h generalizing i with
  | nil => exact .inl ⟨rfl, rfl⟩
  | cons hab _ ih =>
    cases i with
    | zero => exact .inr ⟨_, _, rfl, rfl, hab⟩
    | succ i => exact ih i

theorem forall₂_set {a : α} {b : β} (hab : R a b) (i : Nat) :
    List.Forall₂ R (as.set i a) (bs.set i b) := by
  induction h generalizing i with
  | nil => exact .nil
  | cons hxy hrest ih =>
    cases i with
    | zero => exact .cons hab hrest
    | succ i => exact .cons hxy (ih i)

end Lists

/-- A call that fails leaves the list. -/
def unlessFailed (f : Strings → Strings) (ok : Bool) (s : Strings) : Strings := if ok then f s else s

section Call

variable {lists : List HeaderBuf} {ss : List Strings} {c : HeaderCall} (hkept : List.Forall₂ Kept lists ss)
include hkept

/-- A call on one list, by what it does to that list. -/
theorem onList_call {i : Nat}
    {f : HeaderBuf → Except Fault (Bool × HeaderBuf)} (g : Strings → Strings)
    {P : Strings → Bool → Prop} (hcall : HeaderStore.call lists c = HeaderStore.onList lists i f)
    (hafter : ∀ ok, Strings.after ss c ok = if ok then Strings.onList ss i g else ss)
    (hwhy : ∀ ok, (∀ s, ss[i]? = some s → P s ok) → Strings.Explained ss c ok)
    (hf : ∀ h s, lists[i]? = some h → ss[i]? = some s → Kept h s →
      ∃ ok h', f h = .ok (ok, h') ∧ P s ok ∧ Kept h' (unlessFailed g ok s)) :
    ∃ ok lists', HeaderStore.call lists c = .ok (ok, lists') ∧ Strings.Explained ss c ok ∧
      List.Forall₂ Kept lists' (Strings.after ss c ok) := by
  rw [hcall]
  rcases forall₂_getElem? hkept i with ⟨hl, hs⟩ | ⟨h, s, hl, hs, hk⟩
  · refine ⟨false, lists, by rw [HeaderStore.onList, hl], hwhy _ fun s hs' => ?_, ?_⟩
    · rw [hs] at hs'
      cases hs'
    · rw [hafter]
      exact hkept
  obtain ⟨ok, h', hfh, hp, hk'⟩ := hf h s hl hs hk
  refine ⟨ok, lists.set i h', ?_, hwhy _ fun s' hs' => ?_, ?_⟩
  · rw [HeaderStore.onList, hl]
    dsimp only
    rw [hfh]
    rfl
  · rw [hs] at hs'
    cases hs'
    exact hp
  · have hset := forall₂_set hkept hk' i
    rw [hafter]
    cases ok with
    | true => rwa [Strings.onList, hs]
    | false =>
      obtain ⟨hi, rfl⟩ := List.getElem?_eq_some_iff.mp hs
      rwa [unlessFailed, if_neg (by decide), set_getElem_self hi] at hset

/-- **One call.** -/
theorem call_spec (hclean : c.Clean) {results : List Bool} (hsafe : c.Safe (.ok (lists, results))) :
    ∃ ok lists', HeaderStore.call lists c = .ok (ok, lists') ∧ Strings.Explained ss c ok ∧
      List.Forall₂ Kept lists' (Strings.after ss c ok) := by
  cases c with
  | create a =>
    obtain ⟨r, hr, ⟨rfl, hfails⟩ | ⟨h, rfl, hk⟩⟩ := @Kept.create a
    · exact ⟨false, lists, by rw [HeaderStore.call, hr]; rfl, fun _ => hfails, hkept⟩
    · exact ⟨true, lists ++ [h], by rw [HeaderStore.call, hr]; rfl, nofun,
        rel_append hkept (.cons hk .nil)⟩
  | add i line a =>
    refine onList_call hkept (fun s => { s with lines := s.lines ++ [line] }) rfl
      (fun ok => by cases ok <;> rfl) (fun _ h => h) fun h s _ _ hk => ?_
    obtain ⟨p, h', hadd, ⟨hp, hpacked, hk'⟩ | ⟨hp, hk', hwhy⟩⟩ :=
      hk.add a (heldText_of_clean hclean.1 hclean.2)
    · exact ⟨true, h', by rw [hadd, ← hp]; rfl, ⟨fun _ => hpacked, nofun⟩, hk'⟩
    · exact ⟨false, h', by rw [hadd, ← hp]; rfl, ⟨nofun, fun _ => hwhy⟩, hk'⟩
  | addHeaders i j a =>
    refine onList_call hkept
      (fun s => { s with lines := s.lines ++ ((ss[j]?).map Strings.lines).getD [] }) rfl
      (fun ok => by cases ok <;> rfl)
      (P := fun s ok => ∀ t, ss[j]? = some t → (ok = true → s.packed = false ∧ t.packed = false) ∧
        (ok = false → s.packed = true ∨ t.packed = true ∨
          headerIndexLimit < s.lines.length + t.lines.length ∨ a.Fails))
      (fun ok h s t hs ht => h s hs t ht) fun h s hl hs hk => ?_
    by_cases hij : i = j
    · obtain ⟨ok, h', hadd, hk', hnil, htrue, hfalse⟩ :=
        hk.addSelf a (hsafe hij lists results h rfl hl)
      rw [if_pos hij]
      refine ⟨ok, h', hadd, ?_, ?_⟩
      · intro t ht
        rw [← hij, hs] at ht
        cases ht
        exact ⟨fun hok => ⟨htrue hok, htrue hok⟩, fun hok => (hfalse hok).imp_right .inr⟩
      · rw [← hij, hs]
        cases ok with
        | true =>
          show Kept h' { s with lines := s.lines ++ s.lines }
          rwa [show s.lines ++ s.lines = s.lines by rw [hnil]; rfl]
        | false => exact hk'
    · rw [if_neg hij]
      rcases forall₂_getElem? hkept j with ⟨hlj, hsj⟩ | ⟨h2, t, hlj, hsj, hk2⟩
      · rw [hlj, hsj]
        exact ⟨false, h, rfl, nofun, hk⟩
      rw [hlj, hsj]
      obtain ⟨ok, h', hadd, ⟨rfl, hp, hp2, hk'⟩ | ⟨rfl, hk', hwhy⟩⟩ := hk.addHeaders hk2 a
      · refine ⟨true, h', hadd, ?_, hk'⟩
        intro t' ht'
        cases ht'
        exact ⟨fun _ => ⟨hp, hp2⟩, nofun⟩
      · refine ⟨false, h', hadd, ?_, hk'⟩
        intro t' ht'
        cases ht'
        exact ⟨nofun, fun _ => hwhy⟩
  | remove i name a =>
    exact onList_call hkept (fun s => { s with lines := s.lines.eraseP (named name) }) rfl
      (fun ok => by cases ok <;> rfl) (fun _ h => h) fun h s _ _ hk => hk.remove a hclean
  | reset i =>
    refine onList_call hkept (fun _ => {}) rfl (fun ok => by cases ok <;> rfl) (fun _ h => h) ?_
    rintro h s _ _ ⟨k, hh⟩
    exact ⟨true, h.reset, rfl, rfl, k, hh.reset⟩
  | clone i a =>
    rcases forall₂_getElem? hkept i with ⟨hl, hs⟩ | ⟨h, s, hl, hs, hk⟩
    · refine ⟨false, lists, ?_, ?_, hkept⟩
      · rw [HeaderStore.call, hl]
      · intro s hs'
        rw [hs] at hs'
        cases hs'
    obtain ⟨k, hh⟩ := hk
    obtain ⟨h', hclone, hh'⟩ := hh.clone (by simp [Strings.headers, headerStartSize])
      (hsafe lists results h rfl hl)
    refine ⟨true, lists ++ [h'], ?_, fun _ _ => rfl, ?_⟩
    · rw [HeaderStore.call, hl]
      dsimp only
      rw [hclone]
      rfl
    · rw [Strings.after, hs]
      exact rel_append hkept (.cons ⟨k, hh'⟩ .nil)
  | pack i a =>
    refine onList_call hkept (fun s => if s.lines = [] then s else { s with packed := true }) rfl
      (fun ok => by cases ok <;> rfl) (fun _ h => h) fun h s _ _ hk => ?_
    obtain ⟨h', hpack, hk'⟩ := hk.pack a
    exact ⟨true, h', by rw [hpack]; rfl, rfl, hk'⟩

end Call

/-- Calls that have been made, with their results, and the lists they have left. -/
def HeaderStore.Refines (s : HeaderStore.State) (cs : List HeaderCall) : Prop :=
  ∃ lists results ss, s = .ok (lists, results) ∧ Strings.Run cs results ss ∧
    List.Forall₂ Kept lists ss

theorem HeaderStore.Refines.step {s : HeaderStore.State} {cs : List HeaderCall} (h : Refines s cs)
    {c : HeaderCall} (hclean : c.Clean) (hsafe : c.Safe s) : Refines (HeaderStore.step s c) (cs ++ [c]) := by
  obtain ⟨lists, results, ss, rfl, hrun, hkept⟩ := h
  obtain ⟨ok, lists', hcall, hwhy, hkept'⟩ := call_spec hkept hclean hsafe
  refine ⟨lists', results ++ [ok], _, ?_, .step c ok hrun hwhy, hkept'⟩
  show (HeaderStore.call lists c >>= _) = _
  rw [hcall]
  rfl

theorem HeaderStore.Refines.run {s : HeaderStore.State} {cs ds : List HeaderCall} (h : Refines s cs)
    (hclean : ∀ c ∈ ds, c.Clean)
    (hsafe : Machine.AllSteps HeaderStore.step (fun s c => c.Safe s) s ds) :
    Refines (Machine.run HeaderStore.step s ds) (cs ++ ds) := by
  induction ds generalizing s cs with
  | nil =>
    rw [append_nil]
    exact h
  | cons d ds ih =>
    have hnext := ih (h.step (hclean d (by simp)) hsafe.1) ((forall_mem_cons.mp hclean).2) hsafe.2
    rwa [append_assoc] at hnext

/-- **Header lists are lists of strings.** In every run in which a clone has memory for the copy
and only an empty list is added to itself, whatever else the allocator does, the buffers represent
the lists of strings that the calls have made according to their results. -/
theorem header_lists_refine_strings (cs : List HeaderCall) (hclean : ∀ c ∈ cs, c.Clean)
    (hsafe : Machine.AllSteps HeaderStore.step (fun s c => c.Safe s) (.ok ([], [])) cs) :
    ∃ lists results ss, Machine.run HeaderStore.step (.ok ([], [])) cs = .ok (lists, results) ∧
      Strings.Run cs results ss ∧ List.Forall₂ Represents lists ss := by
  obtain ⟨lists, results, ss, hrun, habs, hkept⟩ :=
    @HeaderStore.Refines.run (.ok ([], [])) [] cs ⟨[], [], [], rfl, .nil, .nil⟩ hclean hsafe
  exact ⟨lists, results, ss, hrun, habs, hkept.imp fun _ _ hk => hk.represents⟩

theorem header_lists_refine_strings_two :
    ∃ lists results ss, Machine.run HeaderStore.step (.ok ([], []))
        [.create {}, .add 0 (bytes "Host: h") {}, .add 0 (bytes "Via: v") {}, .clone 0 {},
          .remove 0 (bytes "host") {}, .addHeaders 0 1 {}, .pack 0 {}] = .ok (lists, results) ∧
      Strings.Run [.create {}, .add 0 (bytes "Host: h") {}, .add 0 (bytes "Via: v") {}, .clone 0 {},
        .remove 0 (bytes "host") {}, .addHeaders 0 1 {}, .pack 0 {}] results ss ∧
      List.Forall₂ Represents lists ss := by
  apply header_lists_refine_strings
  · intro c hc
    fin_cases hc
    · trivial
    · exact ⟨by decide, by decide⟩
    · exact ⟨by decide, by decide⟩
    · trivial
    · show 0 ∉ bytes "host"
      decide
    all_goals trivial
  · exact ⟨trivial, trivial, trivial, fun _ _ _ _ _ => ⟨rfl, rfl, rfl⟩, trivial, nofun, trivial, trivial⟩

/-- A copy without memory for it is used through a null pointer. -/
theorem clone_without_memory :
    Machine.run HeaderStore.step (.ok ([], [])) [.create {}, .clone 0 { object := false }] =
      .error .memory := rfl

end CIcap
