import CIcap.Chunk.Decode
import CIcap.Header.Bounds
import CIcap.Request.Encapsulated

/-! # Reading the encapsulated headers

`parse_encaps_headers` and `read_encaps_header` at the level of the header buffers. The size of a header
block is the difference of two offsets of the Encapsulated header; the function copies what was read ahead
and reads the rest, then looks at the last bytes of the block and may add a line end.

`process_encapsulated` takes any numbers for offsets and `check_request` looks at the types only, so a size
can be anything. `encaps_sizes_safe_iff` says which sizes keep the function in its buffer.
-/

namespace CIcap

open CText Segments List

/-! ## The functions -/

/-- `ci_headers_setsize`. A size that does not fit in an `int` is refused by `realloc`. -/
def headersSetsize (a : Allocator) (h : HeaderBuf) (size : Int) : Bool × HeaderBuf :=
  if size < h.buf.length then (true, h)
  else
    let newSize := toInt32 ((size / headsBufSize + 1) * headsBufSize)
    if newSize < 0 then (false, h)
    else
      match a.buffer newSize.toNat with
      | none => (false, h)
      | some m =>
        (true, { h with
          addr := m.addr
          buf := h.buf ++ (range (newSize.toNat - h.buf.length)).map
            (fun i => m.fill (h.buf.length + i)) })

/-- What the headers are read from: the bytes that were read ahead, those that the connection will bring,
and the outcomes of the reads, `none` where waiting or reading fails. The statistics of the request are
left out. -/
structure EncapsIo where
  pstrblockRead : List UInt8
  input : List UInt8
  cuts : List (Option Nat)

/-- The bytes that have not been used. -/
def EncapsIo.stream (io : EncapsIo) : List UInt8 := io.pstrblockRead ++ io.input

/-- What `read_encaps_header` comes to: a status, `CI_ERROR`, or waiting for data. -/
inductive EncapsRet where
  | status (ec : Ec)
  | error
  | waiting
  deriving DecidableEq

/-- The loop of `read_encaps_header`, over the outcomes of the reads: `none` when it is done. -/
def readRemains (io : EncapsIo) (cuts : List (Option Nat)) (h : HeaderBuf) (bufEnd : Nat) (remains : Int) :
    Except Fault (Option EncapsRet × HeaderBuf × Nat × EncapsIo) :=
  if remains ≤ 0 then .ok (none, h, bufEnd, { io with cuts := cuts })
  else
    match cuts with
    | [] => .ok (some .waiting, h, bufEnd, { io with cuts := [] })
    | none :: cuts => .ok (some .error, h, bufEnd, { io with cuts := cuts })
    | some k :: cuts => do
      let got := io.input.take (min k remains.toNat)
      let h ← h.store bufEnd got
      readRemains { io with input := io.input.drop (min k remains.toNat) } cuts h (bufEnd + got.length)
        (remains - got.length)

/-- The bytes that were read ahead are copied: how many there are of the block. -/
def copyAhead (h : HeaderBuf) (size : Int) (io : EncapsIo) : Except Fault (HeaderBuf × Nat × EncapsIo) :=
  let len : Int := io.pstrblockRead.length
  if 0 < len then
    let readed := if len < size then len else size
    -- a negative number of bytes is a very large one
    if readed < 0 then .error .memory
    else do
      let h ← h.store 0 (io.pstrblockRead.take readed.toNat)
      let rest := if size ≤ len then io.pstrblockRead.drop readed.toNat else []
      return (h, readed.toNat, { io with pstrblockRead := rest })
  else .ok (h, 0, io)

/-- The end of `read_encaps_header`: the last bytes of the block are looked at, and some clients forget the
line end. -/
def fixEncapsEnd (buggy : Bool) (h : HeaderBuf) (bufEnd : Nat) : Except Fault HeaderBuf :=
  -- `buf_end - 4` is in front of the buffer
  if bufEnd < 4 then .error .memory
  else if ((h.buf.take bufEnd).drop (bufEnd - 4)) = crlf ++ crlf then .ok { h with bufused := bufEnd }
  else if buggy ∧ (h.buf.take bufEnd).drop (bufEnd - 2) ≠ crlf then do
    HeaderBuf.assert (bufEnd + 2 ≤ h.buf.length)
    let h ← h.store bufEnd crlf
    return { h with bufused := bufEnd + 2 }
  else .ok { h with bufused := bufEnd }

/-- The two bytes for the line end that some clients forget. -/
def encapsPad (buggy : Bool) : Nat := if buggy then 2 else 0

/-- `read_encaps_header` -/
def readEncapsHeader (a : Allocator) (buggy : Bool) (h : HeaderBuf) (size : Int) (io : EncapsIo) :
    Except Fault (EncapsRet × HeaderBuf × EncapsIo) :=
  match headersSetsize a h (toInt32 (size + encapsPad buggy)) with
  | (false, h) => .ok (.status .ec500, h, io)
  | (true, h) => do
      let (h, readed, io) ← copyAhead h size io
      match ← readRemains io io.cuts h readed (size - readed) with
      | (some ret, h, _, io) => return (ret, h, io)
      | (none, h, bufEnd, io) => do
          let h ← fixEncapsEnd buggy h bufEnd
          return (.status .ec100, h, io)

/-- How `parse_encaps_headers` ends. -/
inductive EncapsOut where
  | ret (r : EncapsRet)
  /-- `read_encaps_header` does not return -/
  | readFault (f : Fault)
  /-- `ci_headers_unpack` does not return -/
  | unpackFault (f : Fault)
  deriving DecidableEq

/-- A round of `parse_encaps_headers` on an entity with its header list, by the entity that follows: how
the loop ends, or `none` when it goes on, and the block that was read. -/
def encapsRound (a : Allocator) (buggy : Bool) (p : Entity × HeaderBuf) (next : Option Entity) (io : EncapsIo) :
    Option EncapsOut × List (List UInt8) × EncapsIo :=
  if !p.1.isHdr then (some (.ret (.status .ec100)), [], io)
  else
    match next with
    | none => (some (.ret (.status .ec400)), [], io)
    | some e' =>
      let size := toInt32 (e'.start - p.1.start)
      match readEncapsHeader a buggy p.2 size io with
      | .error f => (some (.readFault f), [], io)
      | .ok (ret, h, io) =>
        if ret ≠ .status .ec100 then (some (.ret ret), [], io)
        else
          let block := h.buf.take size.toNat
          match h.unpack a with
          | .error f => (some (.unpackFault f), [block], io)
          | .ok (ec, _) => (if ec ≠ .ec100 then some (.ret (.status ec)) else none, [block], io)

/-- `parse_encaps_headers`, on the entities with their header lists: how it ends, the blocks that were read
and what is left to read. -/
def parseEncapsHeaders (a : Allocator) (buggy : Bool) :
    List (Entity × HeaderBuf) → EncapsIo → EncapsOut × List (List UInt8) × EncapsIo
  | [], io => (.ret (.status .ec100), [], io)
  | p :: es, io =>
    match encapsRound a buggy p (es.head?.map Prod.fst) io with
    | (some out, blocks, io) => (out, blocks, io)
    | (none, blocks, io) =>
      let rest := parseEncapsHeaders a buggy es io
      (rest.1, blocks ++ rest.2.1, rest.2.2)

/-! ## The sizes -/

/-- The largest size that `ci_headers_setsize` can give to a buffer. -/
def mostBufSize : Nat := 2147479552

/-- The sizes that `parse_encaps_headers` can pass on. No buffer is made that is larger than the last page
of an `int`, so that the loop ends with a larger size. -/
def encapsSizes (buggy : Bool) : List Entity → List Int
  | e :: e' :: es =>
    if e.isHdr then
      toInt32 (e'.start - e.start) ::
        if toInt32 (e'.start - e.start) + encapsPad buggy < mostBufSize then encapsSizes buggy (e' :: es)
        else []
    else []
  | _ => []

/-- The size is that of four bytes at least, and the two that may be added do not overflow it. -/
def EncapsFit (buggy : Bool) (size : Int) : Prop := 4 ≤ size ∧ (buggy = true → size + 2 < 2 ^ 31)

/-- A header list as `ci_request_alloc_entity` hands it out. -/
structure HeaderBuf.Unused (h : HeaderBuf) : Prop where
  length : headsBufSize ≤ h.buf.length
  most : h.buf.length ≤ mostBufSize
  headers : h.headers = []
  packed : h.packed = false
  size : 0 < h.size

/-- A run that has not left the header buffers: the blocks it has read are of the sizes and lie one behind
the other in the stream. -/
def EncapsSound (sizes : List Int) (io : EncapsIo) (run : EncapsOut × List (List UInt8) × EncapsIo) : Prop :=
  run.1 ≠ .readFault .memory ∧ run.2.1.map (fun b => (b.length : Int)) = sizes.take run.2.1.length ∧
    ∃ part, run.2.1.flatten ++ part ++ run.2.2.stream = io.stream

/-- The sizes are not negative, and the runs are sound, whatever arrives. -/
structure EncapsSafe (buggy : Bool) (es : List Entity) : Prop where
  sizes : ∀ size ∈ encapsSizes buggy es, 0 ≤ size
  reads : ∀ (a : Allocator) (ebs : List (Entity × HeaderBuf)) (io : EncapsIo), ebs.map Prod.fst = es →
    (∀ p ∈ ebs, p.2.Unused) → EncapsSound (encapsSizes buggy es) io (parseEncapsHeaders a buggy ebs io)

/-! ## Sizes that fit -/

/-- A list with the same fields but for its buffer, which is not shorter. -/
def HeaderBuf.Grown (h h' : HeaderBuf) : Prop :=
  h'.headers = h.headers ∧ h'.packed = h.packed ∧ h'.size = h.size ∧ h.buf.length ≤ h'.buf.length

theorem HeaderBuf.Grown.trans {h₁ h₂ h₃ : HeaderBuf} (h : h₁.Grown h₂) (h' : h₂.Grown h₃) : h₁.Grown h₃ :=
  ⟨h'.1.trans h.1, h'.2.1.trans h.2.1, h'.2.2.1.trans h.2.2.1, h.2.2.2.trans h'.2.2.2⟩

theorem HeaderBuf.store_take {h : HeaderBuf} {pos : Nat} {data : List UInt8}
    (hroom : pos + data.length ≤ h.buf.length) :
    ∃ h', h.store pos data = .ok h' ∧ h.Grown h' ∧ h'.bufused = h.bufused ∧
      h'.buf.take (pos + data.length) = h.buf.take pos ++ data := by
  have hlen : (h.buf.take pos ++ data).length = pos + data.length := by
    rw [length_append, length_take_of_le (by omega)]
  refine ⟨_, if_pos hroom, ⟨rfl, rfl, rfl, (length_write hroom).ge⟩, rfl, ?_⟩
  rw [write, ← hlen, take_left]

theorem headersSetsize_spec (a : Allocator) (h : HeaderBuf) {m : Nat} (hm : m < 2 ^ 31) :
    headersSetsize a h m = (false, h) ∧ (m < mostBufSize → ∃ n, a.buffer n = none) ∨
      ∃ h', headersSetsize a h m = (true, h') ∧ h.Grown h' ∧ m < h'.buf.length ∧
        (m < h.buf.length ∨ m < mostBufSize) := by
  unfold headersSetsize
  by_cases hlt : (m : Int) < h.buf.length
  · rw [if_pos hlt]
    exact .inr ⟨h, rfl, ⟨rfl, rfl, rfl, le_refl _⟩, by omega, .inl (by omega)⟩
  rw [if_neg hlt]
  dsimp only
  generalize hn : toInt32 (((m : Int) / headsBufSize + 1) * headsBufSize) = n
  unfold toInt32 headsBufSize at hn
  rw [Int.bmod_def] at hn
  unfold mostBufSize
  split
  · exact .inl ⟨rfl, fun hm => by split at hn <;> omega⟩
  · have hbig : (m : Int) < n ∧ m < 2147479552 := by split at hn <;> omega
    cases hmem : a.buffer n.toNat with
    | none => exact .inl ⟨rfl, fun _ => ⟨_, hmem⟩⟩
    | some mem =>
      refine .inr ⟨_, rfl, ⟨rfl, rfl, rfl, ?_⟩, ?_, .inr hbig.2⟩ <;>
        simp only [length_append, length_map, length_range] <;> omega

/-- What is left of the stream behind the bytes `x`. -/
def EncapsIo.Took (io io' : EncapsIo) (x : List UInt8) : Prop := x ++ io'.stream = io.stream

/-- The loop reads into the buffer what it takes from the connection. -/
theorem readRemains_spec (cuts : List (Option Nat)) : ∀ {io : EncapsIo} {h : HeaderBuf} {bufEnd remains : Nat},
    bufEnd + remains ≤ h.buf.length → (0 < remains → io.pstrblockRead = []) →
    ∃ ret h' bufEnd' io' x, readRemains io cuts h bufEnd remains = .ok (ret, h', bufEnd', io') ∧
      h.Grown h' ∧ io.Took io' x ∧ h'.buf.take bufEnd' = h.buf.take bufEnd ++ x ∧
      bufEnd' = bufEnd + x.length ∧ (ret = none → x.length = remains) ∧ ret ≠ some (.status .ec100) := by
  induction cuts with
  | nil =>
    intro io h bufEnd remains _ _
    rw [readRemains]
    split
    · exact ⟨_, _, _, _, [], rfl, ⟨rfl, rfl, rfl, le_refl _⟩, rfl, by simp, rfl,
        fun _ => by simp; omega, nofun⟩
    · exact ⟨_, _, _, _, [], rfl, ⟨rfl, rfl, rfl, le_refl _⟩, rfl, by simp, rfl, nofun, nofun⟩
  | cons cut cuts ih =>
    intro io h bufEnd remains hroom hahead
    rw [readRemains.eq_def]
    by_cases hzero : (remains : Int) ≤ 0
    · rw [if_pos hzero]
      exact ⟨_, _, _, _, [], rfl, ⟨rfl, rfl, rfl, le_refl _⟩, rfl, by simp, rfl,
        fun _ => by simp; omega, nofun⟩
    rw [if_neg hzero]
    cases cut with
    | none => exact ⟨_, _, _, _, [], rfl, ⟨rfl, rfl, rfl, le_refl _⟩, rfl, by simp, rfl, nofun, nofun⟩
    | some k =>
      dsimp only
      rw [Int.toNat_natCast]
      generalize hgot : io.input.take (min k remains) = got
      have hle : got.length ≤ remains := by
        rw [← hgot, length_take]
        omega
      obtain ⟨h₁, hstore, hg₁, -, htake₁⟩ := @HeaderBuf.store_take h bufEnd got (by omega)
      have hlen₁ := hg₁.2.2.2
      obtain ⟨ret, h', bufEnd', io', x, hrun, hg, htook, htake, hend, hret, hne⟩ :=
        @ih { io with input := io.input.drop (min k remains) } h₁ (bufEnd + got.length)
          (remains - got.length) (by omega) (fun _ => hahead (by omega))
      refine ⟨ret, h', bufEnd', io', got ++ x, ?_, ?_, ?_, ?_, ?_, ?_, hne⟩
      · rw [hstore, ← hrun, Int.ofNat_sub hle]
        rfl
      · exact hg₁.trans hg
      · have hnil := hahead (by omega)
        have hin : io.input = got ++ io.input.drop (min k remains) := by
          rw [← hgot, take_append_drop]
        unfold EncapsIo.Took EncapsIo.stream at htook ⊢
        rw [append_assoc, htook]
        rw [hnil, nil_append, nil_append, ← hin]
      · rw [htake, htake₁, append_assoc]
      · rw [length_append]
        omega
      · intro hnone
        have := hret hnone
        rw [length_append]
        omega

theorem copyAhead_spec {h : HeaderBuf} {n : Nat} (io : EncapsIo) (hroom : n ≤ h.buf.length) :
    ∃ h' io' x, copyAhead h n io = .ok (h', x.length, io') ∧ h.Grown h' ∧ io.Took io' x ∧ x.length ≤ n ∧
      h'.buf.take x.length = x ∧ (x.length < n → io'.pstrblockRead = []) := by
  unfold copyAhead
  by_cases hlen : (0 : Int) < io.pstrblockRead.length
  · rw [if_pos hlen]
    -- the copied bytes are the first `n`, or all there are
    have hreaded : (if (io.pstrblockRead.length : Int) < n then (io.pstrblockRead.length : Int) else n) =
        ((io.pstrblockRead.take n).length : Int) := by
      rw [length_take]
      split <;> omega
    rw [hreaded, if_neg (by omega), Int.toNat_natCast]
    have hx : io.pstrblockRead.take (io.pstrblockRead.take n).length = io.pstrblockRead.take n := by
      rw [take_eq_take_iff]
      omega
    rw [hx]
    obtain ⟨h', hstore, hg, -, htake⟩ := @HeaderBuf.store_take h 0 (io.pstrblockRead.take n)
      (by rw [length_take]; omega)
    rw [Nat.zero_add] at htake
    rw [hstore]
    refine ⟨h', _, io.pstrblockRead.take n, rfl, hg, ?_, length_take_le _ _, htake, ?_⟩
    · show io.pstrblockRead.take n ++ (_ ++ io.input) = io.pstrblockRead ++ io.input
      rw [← append_assoc]
      split
      · rw [length_take, Nat.min_eq_left (by omega), take_append_drop]
      · rw [append_nil, take_of_length_le (by omega)]
    · intro hlt
      exact if_neg (by omega)
  · rw [if_neg hlen]
    exact ⟨h, io, [], rfl, ⟨rfl, rfl, rfl, le_refl _⟩, rfl, Nat.zero_le _, rfl,
      fun _ => length_eq_zero_iff.mp (by omega)⟩

theorem fixEncapsEnd_spec {buggy : Bool} {h : HeaderBuf} {n : Nat} (hn : 4 ≤ n)
    (hroom : n + encapsPad buggy ≤ h.buf.length) :
    ∃ h', fixEncapsEnd buggy h n = .ok h' ∧ h.Grown h' ∧ h'.buf.take n = h.buf.take n ∧
      h'.bufused ≤ h'.buf.length := by
  have hle : n ≤ h.buf.length := by omega
  unfold fixEncapsEnd
  rw [if_neg (by omega)]
  split
  · exact ⟨_, rfl, ⟨rfl, rfl, rfl, le_refl _⟩, rfl, hle⟩
  split
  · rename_i hfix
    rw [hfix.1] at hroom
    obtain ⟨h', hstore, hg, -, htake⟩ := @HeaderBuf.store_take h n crlf hroom
    have hassert : HeaderBuf.assert (n + 2 ≤ h.buf.length) = .ok () := if_pos (decide_eq_true hroom)
    rw [hassert, hstore]
    refine ⟨_, rfl, hg, ?_, hroom.trans hg.2.2.2⟩
    have := congrArg (take n) htake
    rw [take_take, Nat.min_eq_left (by omega), take_append_of_le_length (by simp; omega),
      take_take, Nat.min_self] at this
    exact this
  · exact ⟨_, rfl, ⟨rfl, rfl, rfl, le_refl _⟩, rfl, hle⟩

variable {buggy : Bool} {n : Nat} {h : HeaderBuf} {e e' : Entity}

/-- The size with what is added to it is not negative. -/
theorem EncapsFit.padded (hlt : n < 2 ^ 31) (hfit : EncapsFit buggy n) :
    n + encapsPad buggy < 2 ^ 31 ∧ toInt32 ((n : Int) + encapsPad buggy) = ((n + encapsPad buggy : Nat) : Int) := by
  have hm : n + encapsPad buggy < 2 ^ 31 := by
    cases buggy with
    | true => exact_mod_cast hfit.2 rfl
    | false => exact hlt
  exact ⟨hm, by rw [← Nat.cast_add, toInt32_of_lt hm]⟩

/-- **A size that fits**: the function returns, and what it read is in the buffer. -/
theorem readEncapsHeader_spec (a : Allocator) (io : EncapsIo)
    (hlt : n < 2 ^ 31) (hfit : EncapsFit buggy n) (hmost : h.buf.length ≤ mostBufSize) :
    ∃ ret h' io' x, readEncapsHeader a buggy h n io = .ok (ret, h', io') ∧ io.Took io' x ∧
      (ret = .status .ec100 → h'.buf.take n = x ∧ x.length = n ∧ n + encapsPad buggy < mostBufSize) := by
  obtain ⟨hm, hsize⟩ := hfit.padded hlt
  have hfour := hfit.1
  rw [readEncapsHeader, hsize]
  rcases headersSetsize_spec a h hm with ⟨heq, -⟩ | ⟨h₁, heq, -, hroom, hpage⟩
  · rw [heq]
    exact ⟨.status .ec500, h, io, [], rfl, rfl, fun h => absurd h (by decide)⟩
  rw [heq]
  dsimp only
  obtain ⟨h₂, io₂, x, hcopy, hg₂, htook, hx, htake, hahead⟩ := @copyAhead_spec h₁ n io (by omega)
  have hlen₂ := hg₂.2.2.2
  obtain ⟨ret, h₃, bufEnd, io₃, y, hrun, hg₃, htook', htake', hend, hret, hne⟩ :=
    @readRemains_spec io₂.cuts io₂ h₂ x.length (n - x.length) (by omega) (fun hpos => hahead (by omega))
  have hlen₃ := hg₃.2.2.2
  have hall : io.Took io₃ (x ++ y) := by
    unfold EncapsIo.Took at htook htook' ⊢
    rw [append_assoc, htook', htook]
  rw [hcopy]
  show ∃ ret h' io' z, (readRemains io₂ io₂.cuts h₂ x.length ((n : Int) - x.length) >>= _) = _ ∧ _
  rw [← Int.ofNat_sub hx, hrun]
  cases ret with
  | some ret => exact ⟨ret, h₃, io₃, x ++ y, rfl, hall, fun heq => absurd (congrArg some heq) hne⟩
  | none =>
    -- all bytes of the block are there
    have hy := hret rfl
    obtain ⟨h', hfix, -, hkept, -⟩ := @fixEncapsEnd_spec buggy h₃ n (by omega) (by omega)
    refine ⟨.status .ec100, h', io₃, x ++ y, ?_, hall, fun _ => ⟨?_, ?_, by omega⟩⟩
    · show (fixEncapsEnd buggy h₃ bufEnd >>= _) = _
      rw [hend, hy, Nat.add_sub_cancel' hx, hfix]
      rfl
    · rw [hend, hy, Nat.add_sub_cancel' hx, htake] at htake'
      rw [hkept, htake']
    · rw [length_append]
      omega

theorem toInt32_lt (z : Int) : toInt32 z < 2 ^ 31 := by
  unfold toInt32
  rw [Int.bmod_def]
  split <;> omega

theorem encapsSizes_cons (buggy : Bool) (he : e.isHdr = true) (es : List Entity) :
    encapsSizes buggy (e :: e' :: es) = toInt32 (e'.start - e.start) ::
      if toInt32 (e'.start - e.start) + encapsPad buggy < mostBufSize then encapsSizes buggy (e' :: es)
      else [] := by
  rw [encapsSizes, if_pos he]

/-- A round with a size that fits reads the bytes `x`; when the loop goes on they are the block. -/
theorem encapsRound_fit (a : Allocator) (p : Entity × HeaderBuf) (es : List Entity)
    (io : EncapsIo) (hmost : p.2.buf.length ≤ mostBufSize)
    (hfit : ∀ size ∈ encapsSizes buggy (p.1 :: es), EncapsFit buggy size) :
    ∃ out io' x, (encapsRound a buggy p es.head? io = (out, [], io') ∧ out ≠ none ∨
        encapsRound a buggy p es.head? io = (out, [x], io') ∧
          encapsSizes buggy (p.1 :: es) = (x.length : Int) :: encapsSizes buggy es) ∧
      out ≠ some (.readFault .memory) ∧ io.Took io' x := by
  unfold encapsRound
  by_cases hhdr : p.1.isHdr = true
  case neg =>
    rw [if_pos (by simpa using hhdr)]
    exact ⟨_, _, [], .inl ⟨rfl, nofun⟩, nofun, rfl⟩
  rw [if_neg (by simpa using hhdr)]
  cases es with
  | nil => exact ⟨_, _, [], .inl ⟨rfl, nofun⟩, nofun, rfl⟩
  | cons e' es =>
    rw [encapsSizes_cons buggy hhdr] at hfit ⊢
    have hlt := toInt32_lt (e'.start - p.1.start)
    dsimp only [head?_cons]
    generalize toInt32 (e'.start - p.1.start) = size at hfit hlt
    have hfour := (hfit size (by simp)).1
    obtain ⟨n, rfl⟩ : ∃ n : Nat, size = n := ⟨size.toNat, by omega⟩
    obtain ⟨ret, h₁, io₁, x, hread, htook, hok⟩ := readEncapsHeader_spec a (h := p.2) io
      (by exact_mod_cast hlt) (hfit n (by simp)) hmost
    rw [hread]
    dsimp only
    by_cases hret : ret = .status .ec100
    case neg =>
      rw [if_pos hret]
      exact ⟨_, _, x, .inl ⟨rfl, nofun⟩, nofun, htook⟩
    obtain ⟨htake, hlen, hpage⟩ := hok hret
    rw [if_neg (not_not.mpr hret), Int.toNat_natCast, htake, if_pos (by omega), ← hlen]
    -- the block has been read, whatever `ci_headers_unpack` makes of it
    cases h₁.unpack a with
    | error f => exact ⟨_, _, x, .inr ⟨rfl, rfl⟩, nofun, htook⟩
    | ok res =>
      refine ⟨_, _, x, .inr ⟨rfl, rfl⟩, ?_, htook⟩
      split <;> nofun

/-- **Sizes that fit are safe.** -/
theorem parseEncapsHeaders_sound (a : Allocator) (ebs : List (Entity × HeaderBuf)) :
    ∀ (io : EncapsIo), (∀ p ∈ ebs, p.2.Unused) →
      (∀ size ∈ encapsSizes buggy (ebs.map Prod.fst), EncapsFit buggy size) →
      EncapsSound (encapsSizes buggy (ebs.map Prod.fst)) io (parseEncapsHeaders a buggy ebs io) := by
  induction ebs with
  | nil => exact fun io _ _ => ⟨nofun, rfl, [], rfl⟩
  | cons p ebs ih =>
    intro io hu hfit
    rw [parseEncapsHeaders, ← head?_map]
    obtain ⟨out, io', x, ⟨heq, hend⟩ | ⟨heq, hsizes⟩, hout, htook⟩ :=
      encapsRound_fit a p (ebs.map Prod.fst) io (hu p mem_cons_self).most hfit
    · rw [heq]
      obtain ⟨out, rfl⟩ := Option.ne_none_iff_exists'.mp hend
      exact ⟨fun h => hout (congrArg some h), rfl, x, htook⟩
    have hrest := ih io' ((forall_mem_cons.mp hu).2)
      fun s hs => hfit s (by rw [map_cons, hsizes]; exact mem_cons_of_mem _ hs)
    rw [heq, map_cons, hsizes]
    cases out with
    | some out => exact ⟨fun h => hout (congrArg some h), rfl, [], by simpa [EncapsIo.Took] using htook⟩
    | none =>
      obtain ⟨hne, hlen, part, hpart⟩ := hrest
      refine ⟨hne, ?_, part, ?_⟩
      · show (x.length : Int) :: (parseEncapsHeaders a buggy ebs io').2.1.map _ = _
        rw [hlen]
        rfl
      · rw [← htook, ← hpart]
        simp

/-! ## Sizes that do not fit -/

theorem loaded_length : (loaded []).buf.length = headsBufSize := by simp [loaded]

theorem readEncapsHeader_plain {h₁ : HeaderBuf} {size : Int} {io : EncapsIo}
    (hnil : io.pstrblockRead = []) (hset : headersSetsize {} h (toInt32 (size + encapsPad buggy)) = (true, h₁)) :
    readEncapsHeader {} buggy h size io =
      match readRemains io io.cuts h₁ 0 size with
      | .error f => .error f
      | .ok (some ret, h, _, io) => .ok (ret, h, io)
      | .ok (none, h, bufEnd, io) => (fixEncapsEnd buggy h bufEnd).map fun h => (.status .ec100, h, io) := by
  unfold readEncapsHeader
  have hcopy : copyAhead h₁ size io = .ok (h₁, 0, io) := by
    unfold copyAhead
    rw [hnil]
    exact if_neg (by simp)
  rw [hset]
  dsimp only
  rw [hcopy]
  show (readRemains io io.cuts h₁ 0 (size - 0) >>= _) = _
  rw [Int.sub_zero]
  rcases readRemains io io.cuts h₁ 0 size with f | ⟨_ | ret, h, bufEnd, io⟩
  · rfl
  · cases fixEncapsEnd buggy h bufEnd <;> rfl
  · rfl

theorem readRemains_once {x more : List UInt8} {h : HeaderBuf} {n : Nat} (cuts : List (Option Nat))
    (hn : x.length = n) (hle : n ≤ h.buf.length) :
    ∃ h' cuts', readRemains ⟨[], x ++ more, some n :: cuts⟩ (some n :: cuts) h 0 n =
        .ok (none, h', n, ⟨[], more, cuts'⟩) ∧ (0 < n → cuts' = cuts) ∧
      h.Grown h' ∧ h'.buf.take n = x := by
  subst hn
  rw [readRemains]
  by_cases hnil : (x.length : Int) ≤ 0
  · obtain rfl : x = [] := length_eq_zero_iff.mp (by omega)
    exact ⟨h, _, rfl, fun h => absurd h (lt_irrefl 0), ⟨rfl, rfl, rfl, le_refl _⟩, rfl⟩
  rw [if_neg hnil]
  dsimp only
  rw [Int.toNat_natCast, Nat.min_self, take_left, drop_left]
  obtain ⟨h', hstore, hg, -, htake⟩ := @HeaderBuf.store_take h 0 x (by omega)
  refine ⟨h', cuts, ?_, fun _ => rfl, hg, by simpa using htake⟩
  rw [hstore]
  show readRemains _ cuts h' (0 + x.length) ((x.length : Int) - x.length) = _
  rw [Int.sub_self, readRemains.eq_def, if_pos (le_refl _), Nat.zero_add]

/-- **A size that does not fit** leads outside the buffer. -/
theorem readEncapsHeader_outside {size : Int} (hge : -2 ^ 31 ≤ size) (hlt : size < 2 ^ 31)
    (hbad : ¬ EncapsFit buggy size) : ∃ io : EncapsIo, io.pstrblockRead = [] ∧
      readEncapsHeader {} buggy (loaded []) size io = .error .memory := by
  -- the buffer is not made larger
  have hset : headersSetsize {} (loaded []) (toInt32 (size + encapsPad buggy)) = (true, loaded []) := by
    refine if_pos ?_
    rw [loaded_length]
    unfold EncapsFit at hbad
    unfold toInt32 headsBufSize encapsPad
    rw [Int.bmod_def]
    cases buggy <;> simp at hbad ⊢ <;> split <;> omega
  rcases Int.lt_or_le size 4 with hsmall | hfour
  · -- the last four bytes begin in front of the buffer
    have hend : ∀ {h : HeaderBuf} {n : Nat}, n < 4 → fixEncapsEnd buggy h n = .error .memory :=
      fun hn => if_pos hn
    rcases Int.lt_or_le size 0 with hneg | hpos
    · refine ⟨⟨[], [], []⟩, rfl, ?_⟩
      rw [readEncapsHeader_plain rfl hset, readRemains, if_pos (by omega)]
      rfl
    obtain ⟨n, rfl⟩ : ∃ n : Nat, size = n := ⟨size.toNat, by omega⟩
    refine ⟨⟨[], replicate n 65 ++ [], [some n]⟩, rfl, ?_⟩
    obtain ⟨h', cuts', hrun, -⟩ := @readRemains_once (replicate n 65) [] (loaded []) n []
      length_replicate (by rw [loaded_length]; unfold headsBufSize; omega)
    rw [readEncapsHeader_plain rfl hset, hrun]
    dsimp only
    rw [hend (by omega)]
    rfl
  · -- the size with the two bytes is negative
    refine ⟨⟨[], replicate (headsBufSize + 1) 65, [some (headsBufSize + 1)]⟩, rfl, ?_⟩
    have hbig : headsBufSize + 1 ≤ size.toNat := by
      unfold EncapsFit at hbad
      unfold headsBufSize
      omega
    rw [readEncapsHeader_plain rfl hset, readRemains, if_neg (by omega)]
    dsimp only
    rw [Nat.min_eq_left hbig, HeaderBuf.store, loaded_length, if_neg (by simp)]
    rfl

/-- A block of one line, of `n` bytes. -/
def plainBlock (n : Nat) : List UInt8 := replicate (n - 2) 65 ++ crlf

theorem fixEncapsEnd_plain (hn : 4 ≤ n)
    (htake : h.buf.take n = plainBlock n) : fixEncapsEnd buggy h n = .ok { h with bufused := n } := by
  have htwo : (plainBlock n).drop (n - 2) = crlf := by
    unfold plainBlock
    rw [drop_append_of_le_length (by simp), drop_of_length_le (by simp)]
    rfl
  have hfour : (plainBlock n).drop (n - 4) ≠ crlf ++ crlf := by
    unfold plainBlock
    rw [drop_append_of_le_length (by simp; omega), drop_replicate, show n - 2 - (n - 4) = 2 by omega]
    decide
  unfold fixEncapsEnd
  rw [if_neg (by omega), htake, if_neg hfour, if_neg fun h => h.2 htwo]

theorem unpack_plain {h : HeaderBuf} {n : Nat} (hn : 4 ≤ n) (htake : h.buf.take n = plainBlock n)
    (hused : h.bufused = n) (hle : n ≤ h.buf.length) (hsize : 0 < h.size) :
    ∃ h', h.unpack {} = .ok (.ec100, h') := by
  have hat : ∀ i < n, h.buf.getD i 0 = (plainBlock n).getD i 0 := by
    intro i hi
    rw [← htake, getD_eq_getElem?_getD, getD_eq_getElem?_getD, getElem?_take_of_lt hi]
  have hline : ∀ i < n - 2, h.buf.getD i 0 = 65 := by
    intro i hi
    rw [hat i (by omega), plainBlock, getD_eq_getElem?_getD, getElem?_append_left (by simpa using hi),
      getElem?_replicate_of_lt hi]
    rfl
  have heol : h.buf.getD (n - 2) 0 = 13 := by
    rw [hat _ (by omega), plainBlock]
    simp [crlf]
  have hend : h.blockEnd = n - 2 := by
    unfold HeaderBuf.blockEnd
    rw [hused, show n - 2 = n - 4 + 2 by omega, HeaderBuf.stripEnds, hline _ (by omega)]
    rfl
  have hbody : h.buf.take (n - 2) = replicate (n - 2) 65 := by
    have := congrArg (take (n - 2)) htake
    rwa [take_take, Nat.min_eq_left (by omega), plainBlock, take_left' (by simp)] at this
  refine HeaderBuf.unpack_ok (by omega) hsize Allocator.not_fails ?_ (.inl ?_)
  · rw [HeaderBuf.Refused, hused, heol]
    simp [HeaderBuf.isEol]
    omega
  · have hrest : LineRest (replicate (n - 2) 65) :=
      lineRest_of_clean fun b hb => by rw [eq_of_mem_replicate hb]; decide
    unfold HeaderBuf.blockLines
    rw [hend, hbody, (Headers.reads_rest hrest []).done]
    refine ⟨_, mem_singleton.mpr rfl, 65, ?_, by decide⟩
    exact mem_map.mpr ⟨65, mem_replicate.mpr ⟨by omega, rfl⟩, rfl⟩

theorem encapsRound_error {a : Allocator} {io : EncapsIo} (he : e.isHdr = true) {f : Fault}
    (hread : readEncapsHeader a buggy h (toInt32 (e'.start - e.start)) io = .error f) :
    encapsRound a buggy (e, h) (some e') io = (some (.readFault f), [], io) := by
  unfold encapsRound
  rw [if_neg (by simpa using he)]
  dsimp only
  rw [hread]

theorem encapsRound_plain (he : e.isHdr = true)
    (hsize : toInt32 (e'.start - e.start) = n) (hfit : EncapsFit buggy n)
    (hpage : (n : Int) + encapsPad buggy < mostBufSize) (io : EncapsIo) :
    encapsRound {} buggy (e, loaded []) (some e') ⟨[], plainBlock n ++ io.input, some n :: io.cuts⟩ =
      (none, [plainBlock n], ⟨[], io.input, io.cuts⟩) := by
  have hfour : 4 ≤ n := by exact_mod_cast hfit.1
  obtain ⟨hm, hpad⟩ := hfit.padded (n := n) (by unfold mostBufSize at hpage; omega)
  obtain ⟨h₁, hset, hg₁, hroom⟩ : ∃ h₁, headersSetsize {} (loaded []) (toInt32 (n + encapsPad buggy)) = (true, h₁) ∧
      (loaded []).Grown h₁ ∧ n + encapsPad buggy < h₁.buf.length := by
    rw [hpad]
    rcases headersSetsize_spec {} (loaded []) hm with ⟨-, hfail⟩ | ⟨h₁, hset, hg, hroom, -⟩
    · exact absurd (hfail (by omega)) (by simp)
    · exact ⟨h₁, hset, hg, hroom⟩
  obtain ⟨h₂, cuts, hrun, hcuts, hg₂, htake⟩ := @readRemains_once (plainBlock n) io.input h₁ n io.cuts
    (by simp [plainBlock]; omega) (by omega)
  have hlen := hg₂.2.2.2
  have hread : readEncapsHeader {} buggy (loaded []) (toInt32 (e'.start - e.start))
      ⟨[], plainBlock n ++ io.input, some n :: io.cuts⟩ =
        .ok (.status .ec100, { h₂ with bufused := n }, ⟨[], io.input, io.cuts⟩) := by
    rw [hsize, readEncapsHeader_plain rfl hset, hrun, hcuts (by omega)]
    dsimp only
    rw [fixEncapsEnd_plain hfour htake]
    rfl
  obtain ⟨h₃, hun⟩ := @unpack_plain { h₂ with bufused := n } n hfour htake rfl (by dsimp only; omega)
    (by rw [show ({ h₂ with bufused := n } : HeaderBuf).size = (loaded []).size from
          hg₂.2.2.1.trans hg₁.2.2.1]; decide)
  unfold encapsRound
  rw [if_neg (by simpa using he)]
  dsimp only
  rw [hread, hsize]
  dsimp only
  rw [hun, Int.toNat_natCast, htake]
  rfl

/-- The headers before a size that does not fit can be read, so that the call with it is made. -/
theorem parseEncapsHeaders_outside (es : List Entity) :
    (∃ size ∈ encapsSizes buggy es, ¬ EncapsFit buggy size) → ∃ io : EncapsIo, io.pstrblockRead = [] ∧
      (parseEncapsHeaders {} buggy (es.map (·, loaded [])) io).1 = .readFault .memory := by
  induction es with
  | nil => exact fun ⟨size, hs, _⟩ => absurd hs not_mem_nil
  | cons e es ih =>
    rintro ⟨size, hs, hbad⟩
    cases es with
    | nil => exact absurd hs not_mem_nil
    | cons e' es =>
      by_cases hhdr : e.isHdr = true
      case neg =>
        rw [encapsSizes, if_neg hhdr] at hs
        exact absurd hs not_mem_nil
      rw [encapsSizes_cons buggy hhdr, mem_cons] at hs
      by_cases hfit : EncapsFit buggy (toInt32 (e'.start - e.start))
      · -- a block of this size, and then the bytes for the rest
        have hs := hs.resolve_left fun h => hbad (h ▸ hfit)
        by_cases hpage : toInt32 (e'.start - e.start) + encapsPad buggy < mostBufSize
        case neg =>
          rw [if_neg hpage] at hs
          exact absurd hs not_mem_nil
        rw [if_pos hpage] at hs
        obtain ⟨io, hnil, hrest⟩ := ih ⟨size, hs, hbad⟩
        obtain ⟨n, hn⟩ : ∃ n : Nat, toInt32 (e'.start - e.start) = n :=
          ⟨(toInt32 (e'.start - e.start)).toNat, by have := hfit.1; omega⟩
        rw [hn] at hfit hpage
        refine ⟨⟨[], plainBlock n ++ io.input, some n :: io.cuts⟩, rfl, ?_⟩
        rw [map_cons, parseEncapsHeaders, map_cons, head?_cons, Option.map_some,
          encapsRound_plain hhdr hn hfit hpage io]
        have hio : io = ⟨[], io.input, io.cuts⟩ := by rw [← hnil]
        rwa [hio] at hrest
      · have hge : -2 ^ 31 ≤ toInt32 (e'.start - e.start) := by
          unfold toInt32
          rw [Int.bmod_def]
          split <;> omega
        obtain ⟨io, hnil, hread⟩ := readEncapsHeader_outside hge (toInt32_lt _) hfit
        refine ⟨io, hnil, ?_⟩
        rw [map_cons, parseEncapsHeaders, map_cons, head?_cons, Option.map_some,
          encapsRound_error hhdr hread]

/-! ## The Encapsulated header -/

variable {σ : Type}

/-- The entities of an Encapsulated header that passes `process_encapsulated` and `check_request`. -/
def acceptedEntities (req : Req σ) (s : List UInt8) : Option (List Entity) :=
  match processEncapsulated req s with
  | (.ec100, req) => if checkRequest req = .ec100 then some req.entities else none
  | _ => none

theorem loaded_unused : (loaded []).Unused where
  length := loaded_length.ge
  most := by rw [loaded_length]; decide
  headers := rfl
  packed := rfl
  size := by decide

theorem encapsSafe_iff {es : List Entity} :
    EncapsSafe buggy es ↔ ∀ size ∈ encapsSizes buggy es, EncapsFit buggy size := by
  constructor
  · intro hsafe
    by_contra hbad
    push Not at hbad
    obtain ⟨io, -, hout⟩ := parseEncapsHeaders_outside es hbad
    have hu : ∀ p ∈ es.map (·, loaded []), p.2.Unused := by
      rintro p hp
      obtain ⟨e, -, rfl⟩ := mem_map.mp hp
      exact loaded_unused
    exact (hsafe.reads {} (es.map (·, loaded [])) io (by simp [Function.comp_def]) hu).1 hout
  · intro hfit
    refine ⟨fun size hs => by have := (hfit size hs).1; omega, ?_⟩
    rintro a ebs io rfl hu
    exact parseEncapsHeaders_sound a ebs io hu hfit

end CIcap
