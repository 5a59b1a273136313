import CIcap.Lib.Machine

/-! # The cached file

`ci_cached_file_t` of `body.c`: a body that is kept in memory as long as it fits a buffer, and
moves to a temporary file with the first write that does not fit. The end and the read position
mean the same in both places. What the allocator and the system do are inputs of the operations.
The descriptor 0 is never given to a temporary file, since the server keeps it open.
-/

namespace CIcap

open List

/-- `ci_cached_file_t`; `fd` is the temporary file with its contents, if there is one. -/
structure CachedFile where
  endpos : Nat
  readpos : Nat
  bufsize : Nat
  buf : List UInt8
  fd : Option (List UInt8)
  /-- `CI_FILE_HAS_EOF` -/
  hasEof : Bool
  /-- `CI_FILE_USELOCK` -/
  useLock : Bool
  unlocked : Int

namespace CachedFile

/-- What the system does in a write: whether a temporary file can be made, whether the buffer is
written to it and whether the data are. -/
structure Io where
  created : Bool
  stored : Bool
  appended : Bool

def Io.success : Io := { created := true, stored := true, appended := true }

/-- `ci_cached_file_new` with `CI_BODY_MAX_MEM` and whether the buffer can be allocated; `none` if
no temporary file can be made. -/
def new (maxMem size : Int) (granted created : Bool) : Option CachedFile :=
  let size := if size = 0 then maxMem else size
  if 0 < size ∧ size ≤ maxMem ∧ granted then
    some { endpos := 0, readpos := 0, bufsize := size.toNat, buf := [], fd := none,
           hasEof := false, useLock := false, unlocked := 0 }
  else if created then
    some { endpos := 0, readpos := 0, bufsize := 0, buf := [], fd := some [],
           hasEof := false, useLock := false, unlocked := 0 }
  else none

/-- `resize_buffer` -/
def resizeBuffer (maxMem : Int) (b : CachedFile) (newSize : Int) (granted : Bool) : CachedFile :=
  if newSize < b.bufsize then b
  else if maxMem < newSize then b
  else if granted then { b with bufsize := newSize.toNat }
  else b

/-- `ci_cached_file_reset` -/
def reset (maxMem : Int) (b : CachedFile) (newSize : Int) (granted : Bool) : CachedFile :=
  resizeBuffer maxMem
    { b with endpos := 0, readpos := 0, hasEof := false, useLock := false, unlocked := 0, fd := none }
    newSize granted

/-- `ci_cached_file_write` -/
def write (b : CachedFile) (data : List UInt8) (iseof : Bool) (io : Io) : CachedFile × Int :=
  let b := { b with hasEof := b.hasEof || iseof }
  if data = [] then (b, 0)
  else
    match b.fd with
    | some file =>
      -- a failed write is only reported
      let file := if io.appended then file ++ data else file
      ({ b with fd := some file, endpos := b.endpos + data.length }, data.length)
    | none =>
      if b.bufsize < b.endpos + data.length then
        if io.created then
          let file := if io.stored then b.buf.take b.endpos else []
          if io.stored ∧ io.appended then
            ({ b with fd := some (file ++ data), endpos := b.endpos + data.length }, data.length)
          else ({ b with fd := some file }, -1)
        else (b, -1)
      else
        ({ b with buf := b.buf.take b.endpos ++ data, endpos := b.endpos + data.length },
          data.length)

/-- `ci_cached_file_read`: the result and the bytes; `io` tells whether the system reads. -/
def read (b : CachedFile) (len : Nat) (io : Bool) : CachedFile × Int × List UInt8 :=
  if b.readpos = b.endpos ∧ b.hasEof then (b, -2, [])
  else if len = 0 then (b, 0, [])
  else
    match b.fd with
    | some file =>
      let remains := if b.useLock ∧ 0 ≤ b.unlocked then (b.unlocked - b.readpos).toNat else len
      if io then
        let out := (file.drop b.readpos).take (min len remains)
        ({ b with readpos := b.readpos + out.length }, out.length, out)
      else (b, -1, [])
    | none =>
      let remains := if b.useLock ∧ 0 ≤ b.unlocked then (b.unlocked - b.readpos).toNat
        else b.endpos - b.readpos
      let out := (b.buf.drop b.readpos).take (min len remains)
      ({ b with readpos := b.readpos + out.length }, out.length, out)

/-! ## What a body is -/

/-- A body as its user sees it: what was written, how much of it was read, and whether it is
complete. -/
structure Body where
  data : List UInt8
  pos : Nat
  eof : Bool

/-- The calls of a user. -/
inductive Call where
  | write (data : List UInt8) (iseof : Bool)
  | read (len : Nat)
  | reset
deriving DecidableEq

/-- What a call returns: the number and the bytes that are read. -/
abbrev Ret := Int × List UInt8

def Body.call (b : Body) : Call → Body × Ret
  | .write data iseof =>
    ({ b with data := b.data ++ data, eof := b.eof || iseof }, data.length, [])
  | .read len =>
    if b.pos = b.data.length ∧ b.eof then (b, -2, [])
    else
      let out := (b.data.drop b.pos).take len
      ({ b with pos := b.pos + out.length }, out.length, out)
  | .reset => ({ data := [], pos := 0, eof := false }, 0, [])

/-- A call with what the allocator and the system do in it. A reset also has a new size. -/
inductive Op where
  | write (data : List UInt8) (iseof : Bool) (io : Io)
  | read (len : Nat) (io : Bool)
  | reset (newSize : Int) (granted : Bool)

/-- An operation on a cached file, with the `CI_BODY_MAX_MEM` of the process. -/
def op (maxMem : Int) (b : CachedFile) : Op → CachedFile × Ret
  | .write data iseof io => let (b, ret) := b.write data iseof io; (b, ret, [])
  | .read len io => b.read len io
  | .reset newSize granted => (b.reset maxMem newSize granted, 0, [])

def Op.call : Op → Call
  | .write data iseof _ => .write data iseof
  | .read len _ => .read len
  | .reset _ _ => .reset

/-- The system does what it is asked for. -/
def Op.Succeeds : Op → Prop
  | .write _ _ io => io = Io.success
  | .read _ io => io = true
  | .reset _ _ => True

/-! ## The two places of a body -/

/-- The bytes of a cached file: those of its temporary file, or those in its buffer. -/
def contents (b : CachedFile) : List UInt8 :=
  match b.fd with
  | some file => file
  | none => b.buf.take b.endpos

/-- A cached file without locks holds a body. -/
structure Holds (b : CachedFile) (s : Body) : Prop where
  contents : b.contents = s.data
  endpos : b.endpos = s.data.length
  readpos : b.readpos = s.pos
  hasEof : b.hasEof = s.eof
  read_le : s.pos ≤ s.data.length
  noLock : b.useLock = false
  fits : b.fd = none → b.endpos ≤ b.bufsize

variable {b : CachedFile} {s : Body}

theorem holds_new {maxMem size : Int} {granted created : Bool}
    (h : new maxMem size granted created = some b) :
    b.Holds { data := [], pos := 0, eof := false } := by
  unfold new at h
  dsimp only at h
  split_ifs at h
  all_goals
    cases h
    exact ⟨rfl, rfl, rfl, rfl, le_rfl, rfl, fun _ => Nat.zero_le _⟩

theorem Holds.reset (_ : b.Holds s) (maxMem newSize : Int)
    (granted : Bool) : (b.reset maxMem newSize granted).Holds { data := [], pos := 0, eof := false } := by
  unfold CachedFile.reset resizeBuffer
  split_ifs
  all_goals exact ⟨rfl, rfl, rfl, rfl, le_rfl, rfl, fun _ => Nat.zero_le _⟩

/-- A write appends to the body, in the buffer, in the file, or from the one to the other. -/
theorem Holds.write (h : b.Holds s) (data : List UInt8) (iseof : Bool) :
    (b.write data iseof Io.success).2 = data.length ∧ (b.write data iseof Io.success).1.Holds
        { s with data := s.data ++ data, eof := s.eof || iseof } := by
  have hcont := h.contents
  have hend := h.endpos
  have hle : s.pos ≤ (s.data ++ data).length := by
    rw [length_append]
    exact h.read_le.trans (Nat.le_add_right _ _)
  have hlen : b.endpos + data.length = (s.data ++ data).length := by
    rw [hend, length_append]
  have heof : (b.hasEof || iseof) = (s.eof || iseof) := by rw [h.hasEof]
  unfold CachedFile.write Io.success
  by_cases hdata : data = []
  · rw [hdata]
    refine ⟨rfl, ?_⟩
    rw [append_nil]
    exact ⟨hcont, hend, h.readpos, heof, h.read_le, h.noLock, h.fits⟩
  rw [if_neg hdata]
  cases hfd : b.fd with
  | some file =>
    have hfile : file = s.data := by
      rw [← hcont, CachedFile.contents, hfd]
    exact ⟨rfl, by rw [← hfile]; rfl, hlen, h.readpos, heof, hle, h.noLock, fun hnone => nomatch hnone⟩
  | none =>
    have hbuf : b.buf.take b.endpos = s.data := by
      rw [← hcont, CachedFile.contents, hfd]
    by_cases hspill : b.bufsize < b.endpos + data.length
    · -- the body moves to a file
      rw [if_pos hspill, hbuf]
      exact ⟨rfl, rfl, hlen, h.readpos, heof, hle, h.noLock, fun hnone => nomatch hnone⟩
    · rw [if_neg hspill, hbuf]
      refine ⟨rfl, ?_, hlen, h.readpos, heof, hle, h.noLock, fun _ => Nat.not_lt.mp hspill⟩
      show (s.data ++ data).take (b.endpos + data.length) = s.data ++ data
      rw [hlen, take_length]

/-- A read returns what has not been read of the body. -/
theorem Holds.read (h : b.Holds s) (len : Nat) : (b.read len true).2 = (s.call (.read len)).2 ∧
      (b.read len true).1.Holds (s.call (.read len)).1 := by
  have hend := h.endpos
  have hpos := h.readpos
  have heof : (b.readpos = b.endpos ∧ b.hasEof = true) ↔
      (s.pos = s.data.length ∧ s.eof = true) := by
    rw [hpos, hend, h.hasEof]
  -- the state after `out` was read
  have hnext : ∀ n, n ≤ s.data.length - s.pos →
      ({ b with readpos := b.readpos + n } : CachedFile).Holds { s with pos := s.pos + n } := by
    intro n hn
    have hle := h.read_le
    refine ⟨h.contents, hend, ?_, h.hasEof, ?_, h.noLock, h.fits⟩
    · rw [hpos]
    · dsimp only
      omega
  have hout : ((s.data.drop s.pos).take len).length ≤ s.data.length - s.pos := by
    rw [length_take, length_drop]
    exact Nat.min_le_right _ _
  rw [Body.call]
  unfold CachedFile.read
  by_cases hat : s.pos = s.data.length ∧ s.eof = true
  · rw [if_pos (heof.mpr hat), if_pos hat]
    exact ⟨rfl, h⟩
  rw [if_neg (heof.not.mpr hat), if_neg hat]
  by_cases hlen : len = 0
  · rw [hlen]
    exact ⟨rfl, h⟩
  have hlock : ¬ (b.useLock = true ∧ 0 ≤ b.unlocked) := by
    rw [h.noLock]
    simp
  rw [if_neg hlen]
  simp only [if_neg hlock]
  cases hfd : b.fd with
  | some file =>
    have hfile : file = s.data := by
      rw [← h.contents, CachedFile.contents, hfd]
    dsimp only
    rw [Nat.min_self, hfile, hpos]
    have hfinal := hnext _ hout
    rw [hpos, hfd, hfile] at hfinal
    exact ⟨rfl, hfinal⟩
  | none =>
    have hbuf : (b.buf.drop b.readpos).take (min len (b.endpos - b.readpos)) =
        (s.data.drop s.pos).take len := by
      rw [← h.contents, CachedFile.contents, hfd, ← hpos, drop_take, take_take]
    rw [hbuf]
    have hfinal := hnext _ hout
    rw [hfd] at hfinal
    exact ⟨rfl, hfinal⟩

/-- **The cached file is a body**: every operation returns what the call returns. -/
theorem Holds.op (h : b.Holds s) (maxMem : Int) {o : Op} (ho : o.Succeeds) :
    (b.op maxMem o).2 = (s.call o.call).2 ∧ (b.op maxMem o).1.Holds (s.call o.call).1 := by
  cases o with
  | write data iseof io =>
    cases ho
    obtain ⟨hret, hnext⟩ := h.write data iseof
    exact ⟨Prod.ext hret rfl, hnext⟩
  | read len io =>
    cases ho
    exact h.read len
  | reset newSize granted => exact ⟨rfl, h.reset maxMem newSize granted⟩

end CachedFile

end CIcap
