import CIcap.Header.Edit
import Mathlib.Data.List.DropRight

/-! # Reading a header list

`ci_headers_first_line2` finds the end of the first line from behind, with one header from the byte
behind the used ones.
-/

namespace CIcap

open CText Segments List

namespace HeaderBuf

/-- `ci_headers_setsize`, with the outcome of `realloc`: the index is left as it is. -/
def setsize (a : Allocator) (h : HeaderBuf) (size : Nat) : Bool × HeaderBuf :=
  if size < h.buf.length then (true, h)
  else
    let newSize := (size / headsBufSize + 1) * headsBufSize
    match a.buffer newSize with
    | none => (false, h)
    | some m => (true, { h with
        addr := m.addr
        buf := h.buf ++ (range (newSize - h.buf.length)).map (fun i => m.fill (h.buf.length + i)) })

/-! ## The first line -/

/-- One more than the position from which the loop of `ci_headers_first_line2` starts. -/
def firstEnd (h : HeaderBuf) : Except Fault Nat :=
  match h.headers with
  | _ :: q :: _ => if h.addr ≤ q then .ok (q - h.addr) else .error .memory
  | _ => .ok (h.bufused + 1)

/-- The loop over line ends, on the size that is returned. The first byte is not looked at. -/
def stripEnd (h : HeaderBuf) : Nat → Except Fault Nat
  | 0 => .ok 0
  | 1 => .ok 1
  | n + 2 => do
      let b ← h.byte (n + 1)
      if endByte b then h.stripEnd (n + 1) else return n + 2

/-- `ci_headers_first_line2`: the size of the text at the start of the buffer. -/
def firstLine2 (h : HeaderBuf) : Except Fault (Option Nat) := do
  if h.headers = [] then return none
  let size ← h.stripEnd (← h.firstEnd)
  return some size

/-- The first line: the used bytes in front of the second header, without their line ends. -/
def firstLine (h : HeaderBuf) : List UInt8 :=
  match h.headers with
  | _ :: q :: _ => ((h.buf.take h.bufused).take (q - h.addr)).rdropWhile endByte
  | _ => (h.buf.take h.bufused).rdropWhile endByte

/-- The first line is returned, which is a matter of the used bytes only. -/
def FirstLineExact (h : HeaderBuf) : Prop :=
  h.firstLine2 = .ok (if h.headers = [] then none else some h.firstLine.length)

/-- The end that is assumed lies in the buffer, what stands there behind the used bytes are line
ends, and the first line is not empty. -/
structure FirstLineEnds (h : HeaderBuf) (e : Nat) : Prop where
  inside : e ≤ h.buf.length
  stale : ∀ b ∈ (h.buf.take e).drop h.bufused, endByte b = true
  line : h.firstLine ≠ []

variable {h : HeaderBuf}

theorem stripEnd_ok {e : Nat} (he : e + 1 ≤ h.buf.length) :
    h.stripEnd (e + 1) = .ok (max 1 ((h.buf.take (e + 1)).rdropWhile endByte).length) := by
  induction e with
  | zero =>
    have hle := ( rdropWhile_prefix endByte (h.buf.take 1)).length_le
    rw [length_take] at hle
    rw [Nat.zero_add, stripEnd, Nat.max_eq_left (by omega)]
  | succ e ih =>
    have hb : h.byte (e + 1) = .ok (h.buf[e + 1]) := by
      rw [byte, getElem?_eq_getElem (by omega)]
    rw [stripEnd, hb, take_succ_eq_append_getElem (by omega), rdropWhile_concat]
    show (if endByte h.buf[e + 1] = true then _ else _) = _
    split
    · exact ih (by omega)
    · rw [length_append, length_take_of_le (by omega)]
      rfl

/-- Bytes behind the used ones are stripped, or those in front of them stay. -/
theorem rdropWhile_append_cases (p : UInt8 → Bool) (xs ys : List UInt8) :
    (∀ b ∈ ys, p b = true) ∧ (xs ++ ys).rdropWhile p = xs.rdropWhile p ∨
      (¬ ∀ b ∈ ys, p b = true) ∧ xs.length < ((xs ++ ys).rdropWhile p).length := by
  induction ys using reverseRecOn with
  | nil => simp
  | append_singleton ys b ih =>
    rw [← append_assoc, rdropWhile_concat, forall_mem_append, forall_mem_singleton]
    split_ifs with hb
    · rwa [and_iff_left hb]
    · refine .inr ⟨fun hall => hb hall.2, ?_⟩
      simp only [length_append, length_singleton]
      omega

theorem firstLine_eq {e : Nat} (he : h.firstEnd = .ok e) :
    h.firstLine = ((h.buf.take e).take h.bufused).rdropWhile endByte := by
  unfold firstEnd at he
  unfold firstLine
  rw [take_take, Nat.min_comm, ← take_take]
  split at he
  · split at he
    · cases he
      rfl
    · cases he
  · cases he
    rw [take_take]
    congr
    omega

theorem stripEnd_eq_iff {e : Nat} (he : h.firstEnd = .ok e) :
    h.stripEnd e = .ok h.firstLine.length ↔ e = 0 ∨ h.FirstLineEnds e := by
  have hline := firstLine_eq he
  cases e with
  | zero => simp [hline, stripEnd]
  | succ e =>
    rw [or_iff_right (Nat.succ_ne_zero e)]
    by_cases hin : e + 1 ≤ h.buf.length
    · rw [stripEnd_ok hin, Except.ok.injEq]
      have hcases := rdropWhile_append_cases endByte ((h.buf.take (e + 1)).take h.bufused)
        ((h.buf.take (e + 1)).drop h.bufused)
      rw [take_append_drop, ← hline] at hcases
      rcases hcases with ⟨hall, heq⟩ | ⟨hnot, hlt⟩
      · rw [heq]
        constructor
        · intro hmax
          exact ⟨hin, hall, length_pos_iff.mp (by omega)⟩
        · intro hends
          exact Nat.max_eq_right (length_pos_iff.mpr hends.line)
      · refine iff_of_false ?_ (fun hends => hnot hends.stale)
        have hle := ( rdropWhile_prefix endByte ((h.buf.take (e + 1)).take h.bufused)).length_le
        rw [← hline] at hle
        omega
    · refine iff_of_false ?_ (fun hends => hin hends.inside)
      cases e with
      | zero =>
        have hnil : h.buf = [] := length_eq_zero_iff.mp (by omega)
        simp [hline, hnil, stripEnd]
      | succ e =>
        rw [stripEnd, byte, getElem?_eq_none (by omega)]
        rintro ⟨⟩

/-- **The first line is returned** just when the text that the code looks at from behind ends in
the buffer, with nothing but line ends behind the used bytes, and the line is not empty. -/
theorem firstLine2_exact_iff (h : HeaderBuf) : h.FirstLineExact ↔ h.headers = [] ∨
      ∃ e, h.firstEnd = .ok e ∧ (e = 0 ∨ h.FirstLineEnds e) := by
  unfold FirstLineExact firstLine2
  by_cases hnil : h.headers = []
  · simp [hnil, pure, Except.pure]
  cases he : h.firstEnd with
  | error f => simp [hnil, bind, Except.bind]
  | ok e =>
    have hstrip := stripEnd_eq_iff he
    simp only [hnil, Except.ok.injEq, exists_eq_left', ← hstrip]
    show (h.stripEnd e >>= _) = _ ↔ _
    cases h.stripEnd e with
    | error f => exact iff_of_false nofun nofun
    | ok size => simp [bind, Except.bind, pure, Except.pure]

/-- A short line behind the bytes of a longer one that was there before the reset is returned with
one of them, and after a move of the buffer the index points into the old one. -/
theorem firstLine2_stale :
    (∃ h, (do
        let some h ← create2 {} 2 32 | .error .memory
        let (_, h) ← h.add {} (bytes "Via: proxy")
        let (_, h) ← h.reset.add {} (bytes "a")
        return h) = .ok h ∧ h.firstLine = bytes "a" ∧ h.firstLine2 = .ok (some 6)) ∧
      ∃ h, (do
        let some h ← create2 { buffer := fun _ => some { addr := 64 } } 2 32 | .error .memory
        let (_, h) ← h.add {} (bytes "a")
        let (_, h) ← h.add {} (bytes "b")
        return (h.setsize { buffer := fun _ => some { addr := 128 } } 32).2) = .ok h ∧
          h.firstLine2 = .error .memory :=
  ⟨⟨_, rfl, rfl, rfl⟩, _, rfl, rfl⟩

end HeaderBuf

end CIcap
