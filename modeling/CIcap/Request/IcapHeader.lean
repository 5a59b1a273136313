import CIcap.Header.Buffer
import CIcap.Header.Lines

/-! # Reading the head of a request

`ci_read_icap_header` at the level of its buffer. The head arrives in reads of at most 512 bytes that
are stored one behind the other; the search for the empty line goes on three bytes before the last read,
and the buffer is reallocated when it has no room for another one. What was read behind the head before
this call, by the request before or by this one, is the beginning of the head.

However the stream is cut, the call returns with the head and keeps the bytes behind it
(`readIcapHeader_exact`). A round of the loop is the step of `Run` with the same bytes
(`IcapHead.Waiting.round_readHeaderStep`).
-/

namespace CIcap

open CText Segments List

/-- What `pstrblock_read` and `pstrblock_read_len` hold. -/
inductive ReadAhead where
  /-- a null pointer -/
  | none
  /-- a part of the header buffer, by its offset and length -/
  | own (pos len : Nat)
  /-- bytes in another buffer, that of the body -/
  | other (data : List UInt8)

/-- The fields of a request that `ci_read_icap_header` works on. -/
structure HeadReq where
  h : HeaderBuf
  pstrblockRead : ReadAhead := .none
  bytesIn : Nat := 0
  requestBytesIn : Nat := 0

namespace HeadReq

/-- The bytes that were read ahead. -/
def ahead (q : HeadReq) : List UInt8 :=
  match q.pstrblockRead with
  | .none => []
  | .own pos len => (q.h.buf.drop pos).take len
  | .other data => data

/-- Requests as they come to `ci_read_icap_header`: the header buffer has its first size at least; bytes
of the body's buffer are no more than that buffer has; bytes in the header buffer leave room for a read
once they are moved to its beginning. -/
structure Ready (q : HeadReq) : Prop where
  size : headsBufSize ≤ q.h.buf.length
  own : ∀ pos len, q.pstrblockRead = .own pos len →
    pos + len ≤ q.h.buf.length ∧ len + icapHeaderReadsize ≤ q.h.buf.length
  other : ∀ data, q.pstrblockRead = .other data → data.length ≤ bufSize

end HeadReq

/-- `icap_header_check_realloc` -/
def icapHeaderCheckRealloc (a : Allocator) (h : HeaderBuf) (used mustadded : Nat) : Ec × HeaderBuf :=
  if h.buf.length < used + mustadded then
    match a.buffer (h.buf.length + icapHeaderReadsize) with
    | none => (.ec500, h)
    | some m =>
      (.ec100, { h with
        addr := m.addr
        buf := h.buf ++ (range icapHeaderReadsize).map (fun i => m.fill (h.buf.length + i)) })
  else (.ec100, h)

/-- `strncmp(buf + pos, "\r\n\r\n", 4) == 0` -/
def eohAt (buf : List UInt8) (pos : Int) : Except Fault Bool :=
  if 0 ≤ pos ∧ pos + 4 ≤ buf.length then .ok ((buf.drop pos.toNat).take 4 = crlf ++ crlf)
  else .error .memory

/-- The search loop, with the number of positions to look at. -/
def searchEoh (buf : List UInt8) : Nat → Int → Except Fault (Option Int)
  | 0, _ => .ok none
  | n + 1, pos => do
      if ← eohAt buf pos then return some pos
      searchEoh buf n (pos + 1)

/-- The variables of `ci_read_icap_header`; `bufEnd` is an offset in the buffer. -/
structure IcapHead where
  req : HeadReq
  readed : Nat := 0
  bufEnd : Nat := 0
  startsearch : Int := 0

namespace IcapHead

/-- There is room for another read; the last three bytes will be searched again with it. -/
def goOn (s : IcapHead) (h : HeaderBuf) : IcapHead :=
  { s with
    req := { s.req with h := h }
    bufEnd := s.readed
    startsearch :=
      if -3 < s.startsearch then (if 3 < s.readed then -3 else -(s.readed : Int)) else s.startsearch }

/-- The second part of a round: the search in what was read, and the room for more. A status ends the
loop. -/
def search (a : Allocator) (s : IcapHead) (bytes : Nat) : Except Fault (Option Ec × IcapHead) := do
  match ← searchEoh s.req.h.buf (bytes - 3 - s.startsearch).toNat (s.bufEnd + s.startsearch) with
  | some pos => return (some .ec100, { s with bufEnd := (pos + 4).toNat })
  | none =>
    let (status, h) := icapHeaderCheckRealloc a s.req.h s.readed icapHeaderReadsize
    if status ≠ .ec100 then return (some status, s) else return (none, s.goOn h)

/-- The assignments behind the loop. -/
def leave (s : IcapHead) : HeadReq :=
  { s.req with
    h := { s.req.h with bufused := s.bufEnd }
    pstrblockRead := .own s.bufEnd (s.readed - s.bufEnd)
    requestBytesIn := s.bufEnd }

/-- A round of the loop with the outcome of its read: `none` where waiting or reading fails. -/
def round (a : Allocator) (s : IcapHead) : Option (List UInt8) → Except Fault (Option Ec × IcapHead)
  | none => .ok (some .ec408, s)
  | some got =>
    if got = [] then .ok (none, s)
    else do
      let h ← s.req.h.store s.bufEnd got
      let req := { s.req with h := h, bytesIn := s.req.bytesIn + got.length }
      search a { s with req := req, readed := s.readed + got.length } got.length

/-- The end of a round: the status that is returned, the request, and the reads that were not made.
`EC_408` is returned at once. -/
def ended (s : IcapHead) (status : Ec) (reads : List (Option (List UInt8))) :
    Ec × HeadReq × List (Option (List UInt8)) :=
  (status, if status = .ec408 then s.req else s.leave, reads)

/-- The loop, over the outcomes of the reads; `none` while it waits for another one. -/
def rounds (a : Allocator) (s : IcapHead) :
    List (Option (List UInt8)) → Except Fault (Option (Ec × HeadReq × List (Option (List UInt8))))
  | [] => .ok none
  | got :: reads => do
      match ← s.round a got with
      | (none, s) => rounds a s reads
      | (some status, s) => return some (s.ended status reads)

end IcapHead

/-- The bytes that were read ahead lie in a buffer that has been reallocated since. -/
def HeadReq.dangles (q : HeadReq) (h : HeaderBuf) : Bool :=
  match q.pstrblockRead with
  | .own _ _ => h.buf.length ≠ q.h.buf.length
  | _ => false

/-- The beginning of `ci_read_icap_header`: bytes that were read ahead are moved to the beginning of the
buffer. -/
def moveAhead (a : Allocator) (q : HeadReq) : Except Fault (Ec × HeadReq) :=
  match icapHeaderCheckRealloc a q.h q.ahead.length icapHeaderReadsize with
  | (.ec100, h) =>
    if q.dangles h then .error .memory
    else do
      let h ← h.store 0 q.ahead
      return (.ec100, { q with h := h, pstrblockRead := .none })
  | (status, _) => .ok (status, q)

/-- `ci_read_icap_header` -/
def readIcapHeader (a : Allocator) (pipelining : Bool) (q : HeadReq) (reads : List (Option (List UInt8))) :
    Except Fault (Option (Ec × HeadReq × List (Option (List UInt8)))) := do
  if pipelining ∧ q.ahead ≠ [] then
    let bytes := q.ahead.length
    match ← moveAhead a q with
    | (.ec100, q) =>
      let s : IcapHead := { req := q, readed := bytes }
      match ← s.search a bytes with
      | (none, s) => s.rounds a reads
      | (some status, s) => return some (s.ended status reads)
    | (status, q) => return some (status, q, reads)
  else IcapHead.rounds a { req := q } reads

/-! ## The search -/

/-- The loop finds the first empty line among the bytes it looks at. -/
theorem searchEoh_eq (buf : List UInt8) (n : Nat) : ∀ pos : Nat, pos + n + 3 ≤ buf.length →
    searchEoh buf n pos =
      .ok ((findEoh ((buf.drop pos).take (n + 3))).map fun i => ((pos + i : Nat) : Int)) := by
  induction n with
  | zero =>
    intro pos _
    have hnone : findEoh ((buf.drop pos).take (0 + 3)) = none := by
      apply findEoh_eq_none_iff.mpr
      intro j hj
      have hle := hj.le
      rw [length_take] at hle
      omega
    rw [hnone]
    rfl
  | succ n ih =>
    intro pos hlen
    obtain ⟨b, s, hs⟩ : ∃ b s, buf.drop pos = b :: s := by
      apply exists_cons_of_length_pos
      rw [length_drop]
      omega
    have htail : buf.drop (pos + 1) = s := by rw [← drop_drop, hs]; rfl
    have hfour : (b :: s.take (n + 3)).take 4 = (b :: s).take 4 := by
      rw [← take_succ_cons, take_take, Nat.min_eq_left (by omega)]
    have hat : eohAt buf pos = .ok (decide ((b :: s).take 4 = crlf ++ crlf)) := by
      unfold eohAt
      rw [if_pos ⟨by omega, by omega⟩, Int.toNat_natCast, hs]
    rw [searchEoh, hat, hs]
    show (if decide ((b :: s).take 4 = crlf ++ crlf) = true then _ else _) = _
    rw [show (b :: s).take (n + 1 + 3) = b :: s.take (n + 3) from rfl, findEoh, hfour]
    by_cases h0 : (b :: s).take 4 = crlf ++ crlf
    · rw [if_pos (decide_eq_true h0), if_pos h0]
      rfl
    rw [if_neg fun h => h0 (of_decide_eq_true h), if_neg h0]
    have hnext := ih (pos + 1) (by omega)
    rw [htail] at hnext
    rw [show ((pos : Int) + 1) = ((pos + 1 : Nat) : Int) from rfl, hnext, Option.map_map]
    congr 2
    funext i
    simp only [Function.comp]
    omega

/-- The search in the bytes `x` of a stream that begins with a head, from a position before its end on. -/
theorem EndsHead.search {head rest x more : List UInt8} (h : EndsHead head) (pos : Nat)
    (hx : x ++ more = head ++ rest) (hle : pos ≤ x.length) (hpos : pos + 4 ≤ head.length) :
    (∀ i, findEoh (x.drop pos) = some i → pos + i + 4 = head.length ∧ head.length ≤ x.length) ∧
      (findEoh (x.drop pos) = none → x.length < head.length) := by
  have hlen : (x.take pos).length = pos := length_take_of_le hle
  have hsplit : x.take pos ++ x.drop pos ++ more = head ++ rest := by rw [take_append_drop, hx]
  obtain ⟨hsome, hnone⟩ := h.window hsplit (by rw [hlen]; exact hpos)
  rw [hlen] at hsome hnone
  rw [length_drop] at hnone
  refine ⟨fun i hi => ⟨hsome i hi, ?_⟩, fun hn => by have := hnone hn; omega⟩
  have hend := hsome i hi
  have hin := (findEoh_eq_some_iff.mp hi).1.le
  rw [length_drop] at hin
  omega

/-! ## Room -/

theorem icapHeaderCheckRealloc_room {a : Allocator} {h : HeaderBuf} {used : Nat}
    (hused : used ≤ h.buf.length)
    (hmem : ∀ n ≤ used + 2 * icapHeaderReadsize, (a.buffer n).isSome = true) :
    ∃ h', icapHeaderCheckRealloc a h used icapHeaderReadsize = (.ec100, h') ∧
      h'.buf.take used = h.buf.take used ∧ used + icapHeaderReadsize ≤ h'.buf.length ∧
      h.buf.length ≤ h'.buf.length ∧ (used + icapHeaderReadsize ≤ h.buf.length → h' = h) := by
  unfold icapHeaderCheckRealloc
  by_cases hlt : h.buf.length < used + icapHeaderReadsize
  · rw [if_pos hlt]
    obtain ⟨m, hm⟩ := Option.isSome_iff_exists.mp (hmem (h.buf.length + icapHeaderReadsize) (by omega))
    rw [hm]
    refine ⟨_, rfl, ?_, ?_, ?_, fun hle => absurd hlt (by omega)⟩
    · exact take_append_of_le_length hused
    · simp only [length_append, length_map, length_range]
      omega
    · simp only [length_append]
      omega
  · rw [if_neg hlt]
    exact ⟨h, rfl, rfl, by omega, le_refl _, fun _ => rfl⟩

/-! ## Rounds -/

namespace IcapHead

variable {a : Allocator} {s : IcapHead} {x got : List UInt8}

/-- The bytes `x` have been received and stored. -/
structure Stored (s : IcapHead) (x : List UInt8) : Prop where
  readed : s.readed = x.length
  fits : x.length ≤ s.req.h.buf.length
  stored : s.req.h.buf.take x.length = x

/-- Between two rounds, `x` has been received: there is room for a read, and the search goes on with the
last three bytes. -/
structure Waiting (s : IcapHead) (x : List UInt8) : Prop extends Stored s x where
  bufEnd : s.bufEnd = x.length
  room : x.length + icapHeaderReadsize ≤ s.req.h.buf.length
  back : s.startsearch = -((min 3 x.length : Nat) : Int)

/-- The search of a round looks at the bytes received from the position `pos` on. -/
theorem Stored.searchEoh {bytes pos : Nat} (h : s.Stored x) (hpos : s.bufEnd + s.startsearch = pos)
    (hbytes : pos + (bytes - 3 - s.startsearch).toNat + 3 = x.length ∨
      ((bytes - 3 - s.startsearch).toNat = 0 ∧ x.length ≤ pos + 3)) :
    searchEoh s.req.h.buf (bytes - 3 - s.startsearch).toNat (s.bufEnd + s.startsearch) =
      .ok ((findEoh (x.drop pos)).map fun i => ((pos + i : Nat) : Int)) := by
  rw [hpos]
  have hfits := h.fits
  rcases hbytes with hlen | ⟨hzero, hlen⟩
  · rw [searchEoh_eq _ _ _ (by omega)]
    have hview : (s.req.h.buf.drop pos).take ((bytes - 3 - s.startsearch).toNat + 3) = x.drop pos := by
      calc (s.req.h.buf.drop pos).take ((bytes - 3 - s.startsearch).toNat + 3)
          = (s.req.h.buf.take x.length).drop pos := by
            rw [drop_take, show x.length - pos = (bytes - 3 - s.startsearch).toNat + 3 by omega]
        _ = x.drop pos := by rw [h.stored]
    rw [hview]
  -- fewer than four bytes have been received
  have hnone : findEoh (x.drop pos) = none := by
    apply findEoh_eq_none_iff.mpr
    intro j hj
    have hle := hj.le
    rw [length_drop] at hle
    omega
  rw [hzero, hnone]
  rfl

/-- The search of a round in the bytes received from the position `pos` on: it ends the loop behind the
empty line, or there is room for more. -/
theorem Stored.search_cases (bytes pos : Nat) (h : s.Stored x) (hpos : s.bufEnd + s.startsearch = pos)
    (hbytes : pos + (bytes - 3 - s.startsearch).toNat + 3 = x.length ∨
      ((bytes - 3 - s.startsearch).toNat = 0 ∧ x.length ≤ pos + 3))
    (hback : -3 ≤ s.startsearch) (hmin : s.startsearch = -3 → 3 ≤ x.length)
    (hmem : findEoh (x.drop pos) = none →
      ∀ n ≤ x.length + 2 * icapHeaderReadsize, (a.buffer n).isSome = true) :
    (∃ i, findEoh (x.drop pos) = some i ∧
        s.search a bytes = .ok (some .ec100, { s with bufEnd := pos + i + 4 })) ∨
      (findEoh (x.drop pos) = none ∧ ∃ s', s.search a bytes = .ok (none, s') ∧ s'.Waiting x ∧
        s.req.h.buf.length ≤ s'.req.h.buf.length) := by
  unfold search
  rw [h.searchEoh hpos hbytes]
  cases hfind : findEoh (x.drop pos) with
  | some i => exact Or.inl ⟨i, rfl, rfl⟩
  | none =>
    obtain ⟨h', heq, htake, hroom, hgrow, -⟩ := icapHeaderCheckRealloc_room h.fits (hmem hfind)
    refine Or.inr ⟨rfl, s.goOn h', ?_, ⟨⟨h.readed, ?_, ?_⟩, h.readed, hroom, ?_⟩, hgrow⟩
    · rw [h.readed, heq]
      rfl
    · show x.length ≤ h'.buf.length
      omega
    · exact htake.trans h.stored
    · have hreaded := h.readed
      unfold goOn
      dsimp only
      split_ifs with h3 hr
      all_goals omega

/-- The bytes of a read are in the buffer. -/
def receive (s : IcapHead) (got : List UInt8) : IcapHead :=
  { s with
    req := { s.req with
      h := { s.req.h with buf := write s.req.h.buf s.bufEnd got }
      bytesIn := s.req.bytesIn + got.length }
    readed := s.readed + got.length }

theorem Waiting.receive (h : s.Waiting x) (hgot : got.length ≤ icapHeaderReadsize) :
    (s.receive got).Stored (x ++ got) ∧ (s.receive got).req.h.buf.length = s.req.h.buf.length := by
  have hroom := h.room
  have hbuf : s.req.h.buf.take x.length = x := h.stored
  have hlen : (x ++ got).length = x.length + got.length := length_append
  have hwrite : (write s.req.h.buf s.bufEnd got).length = s.req.h.buf.length :=
    length_write (by rw [h.bufEnd]; omega)
  refine ⟨⟨?_, ?_, ?_⟩, hwrite⟩
  · show s.readed + got.length = _
    rw [hlen, h.readed]
  · show (x ++ got).length ≤ (write s.req.h.buf s.bufEnd got).length
    omega
  · show (write s.req.h.buf s.bufEnd got).take (x ++ got).length = x ++ got
    rw [h.bufEnd, write, hbuf, take_left]

/-- A round with a read that brings bytes. The search begins three bytes before them, or at the beginning
of the buffer. -/
theorem Waiting.round_cases (h : s.Waiting x) (hne : got ≠ []) (hgot : got.length ≤ icapHeaderReadsize)
    (hmem : findEoh ((x ++ got).drop (x.length - min 3 x.length)) = none →
      ∀ n ≤ (x ++ got).length + 2 * icapHeaderReadsize, (a.buffer n).isSome = true) :
    ∃ s', s'.Stored (x ++ got) ∧ s.req.h.buf.length ≤ s'.req.h.buf.length ∧
      ((∃ i, findEoh ((x ++ got).drop (x.length - min 3 x.length)) = some i ∧
          s.round a (some got) = .ok (some .ec100, s') ∧
          s'.bufEnd = x.length - min 3 x.length + i + 4) ∨
        (findEoh ((x ++ got).drop (x.length - min 3 x.length)) = none ∧
          s.round a (some got) = .ok (none, s') ∧ s'.Waiting (x ++ got))) := by
  have hroom := h.room
  have hend := h.bufEnd
  have hback : (s.receive got).startsearch = -((min 3 x.length : Nat) : Int) := h.back
  have hlen : (x ++ got).length = x.length + got.length := length_append
  obtain ⟨hstored, hsize⟩ := h.receive hgot
  have heq : s.round a (some got) = (s.receive got).search a got.length := by
    rw [round, if_neg hne, HeaderBuf.store, if_pos (by omega)]
    rfl
  rw [heq]
  have hstart : ((s.receive got).bufEnd : Int) + (s.receive got).startsearch =
      ((x.length - min 3 x.length : Nat) : Int) := by
    show (s.bufEnd : Int) + s.startsearch = _
    rw [h.back]
    omega
  rcases hstored.search_cases got.length _ hstart (by omega) (by omega) (by omega) hmem with
    ⟨i, hfind, heq⟩ | ⟨hfind, s', heq, hw, hgrow⟩
  · exact ⟨{ s.receive got with bufEnd := x.length - min 3 x.length + i + 4 },
      { hstored with }, hsize.ge, Or.inl ⟨i, hfind, heq, rfl⟩⟩
  · exact ⟨s', hw.toStored, hsize.ge.trans hgrow, Or.inr ⟨hfind, heq, hw⟩⟩

/-- A round is the step of `Run` with the same bytes: both look at what was received from the same
position on, so both come to the end of the head with the same bytes or wait for more. -/
theorem Waiting.round_readHeaderStep {σ : Type} (cfg : Config σ) {c c' : Run σ} {t : Tick} {r : Bool × Bool}
    (h : s.Waiting x) (hwait : Run.waitFor t true false = some r)
    (hread : c.readNonblock t icapHeaderReadsize = some (got, c')) (hne : got ≠ [])
    (hmem : ∀ n, (a.buffer n).isSome = true) :
    ∃ s' b, s'.Stored (x ++ got) ∧ b = { c' with req := { c'.req with
        rd := { c'.req.rd with bytesIn := c'.req.rd.bytesIn + got.length } } } ∧
      ((s.round a (some got) = .ok (some .ec100, s') ∧
          c.readHeaderStep cfg t x (min 3 x.length) = b.headRead cfg t (x ++ got) s'.bufEnd) ∨
        (s.round a (some got) = .ok (none, s') ∧ s'.Waiting (x ++ got) ∧
          c.readHeaderStep cfg t x (min 3 x.length) =
            { b with pc := .readHeader (x ++ got) (min 3 (x ++ got).length) })) := by
  have hgot : got.length ≤ icapHeaderReadsize := by
    obtain ⟨k, -, heq⟩ := Option.map_eq_some_iff.mp hread
    injection heq with hgot _
    rw [← hgot, length_take]
    omega
  obtain ⟨s', hstored, -, hcases⟩ := h.round_cases hne hgot fun _ n _ => hmem n
  refine ⟨s', _, hstored, rfl, ?_⟩
  have hstep : c.readHeaderStep cfg t x (min 3 x.length) = { c' with req := { c'.req with
        rd := { c'.req.rd with bytesIn := c'.req.rd.bytesIn + got.length } } }.searchHead cfg t (x ++ got)
          (x.length - min 3 x.length) (min 3 x.length) := by
    unfold Run.readHeaderStep
    rw [hwait]
    rw [hread]
    dsimp only
    rw [if_neg hne]
  rw [hstep]
  unfold Run.searchHead
  rcases hcases with ⟨i, hfind, heq, hend⟩ | ⟨hfind, heq, hw⟩
  · refine Or.inl ⟨heq, ?_⟩
    rw [hfind, hend]
  · refine Or.inr ⟨heq, hw, ?_⟩
    rw [hfind]
    have hlen : (x ++ got).length = x.length + got.length := length_append
    have hback : (if min 3 x.length < 3 then min (x ++ got).length 3 else min 3 x.length) =
        min 3 (x ++ got).length := by
      split_ifs <;> omega
    rw [hback]

/-- The loop has ended behind the head; `y` has been received, `more` not yet. -/
structure Found (s : IcapHead) (head rest y more : List UInt8) : Prop extends Stored s y where
  stream : y ++ more = head ++ rest
  bufEnd : s.bufEnd = head.length
  whole : head.length ≤ y.length

/-- The loop on reads that bring the head, in whatever pieces. -/
theorem Waiting.rounds_head {head rest : List UInt8} (hhead : EndsHead head) (reads : List (List UInt8))
    (hreads : ∀ r ∈ reads, r.length ≤ icapHeaderReadsize)
    (hmem : ∀ n ≤ head.length + 2 * icapHeaderReadsize, (a.buffer n).isSome = true) :
    ∀ {s : IcapHead} {x : List UInt8}, s.Waiting x → x.length < head.length →
      x ++ reads.flatten = head ++ rest →
      ∃ (s' : IcapHead) (y : List UInt8) (more : List (List UInt8)),
        s.rounds a (reads.map some) = .ok (some (.ec100, s'.leave, more.map some)) ∧
        s'.Found head rest y more.flatten ∧ y.length < head.length + icapHeaderReadsize ∧
        s.req.h.buf.length ≤ s'.req.h.buf.length := by
  induction reads with
  | nil =>
    intro s x _ hlt hx
    have := congrArg length hx
    simp only [flatten_nil, append_nil, length_append] at this
    omega
  | cons got reads ih =>
    intro s x h hlt hx
    have hfour := hhead.four_le
    have hgot := hreads got (by simp)
    have hrest : ∀ r ∈ reads, r.length ≤ icapHeaderReadsize := fun r hr => hreads r (by simp [hr])
    rw [map_cons, rounds]
    by_cases hne : got = []
    · -- a read without bytes is made again
      subst hne
      exact ih hrest h hlt hx
    rw [flatten_cons, ← append_assoc] at hx
    have hsearch := hhead.search (x.length - min 3 x.length) hx
      (by rw [length_append]; omega) (by omega)
    obtain ⟨s', hstored, hgrow, ⟨i, hfind, heq, hend⟩ | ⟨hfind, heq, hw⟩⟩ :=
      h.round_cases hne hgot fun hnone n hn => hmem n (by have := hsearch.2 hnone; omega)
    · obtain ⟨hpos, hle⟩ := hsearch.1 i hfind
      refine ⟨s', x ++ got, reads, by rw [heq]; rfl, ⟨hstored, hx, hend.trans hpos, hle⟩, ?_, hgrow⟩
      rw [length_append]
      omega
    · obtain ⟨t, y, more, hrun, hfound, hy, ht⟩ := ih hrest hw (hsearch.2 hfind) hx
      exact ⟨t, y, more, by rw [heq]; exact hrun, hfound, hy, hgrow.trans ht⟩

/-- The request behind the loop: the head is in the buffer, and what was received behind it is kept. -/
theorem Found.leave {head rest y more : List UInt8} (h : s.Found head rest y more)
    (hsize : headsBufSize ≤ s.req.h.buf.length)
    (hy : y.length + icapHeaderReadsize ≤ head.length + s.req.h.buf.length) :
    s.leave.h.bufused = head.length ∧ s.leave.h.buf.take s.leave.h.bufused = head ∧
      s.leave.ahead ++ more = rest ∧ s.leave.Ready := by
  have hwhole := h.whole
  have hfits := h.fits
  have hreaded := h.readed
  have hend := h.bufEnd
  have hhead : y.take head.length = head := by
    have := congrArg (take head.length) h.stream
    rwa [take_append_of_le_length hwhole, take_left] at this
  have hahead : s.leave.ahead = y.drop head.length := by
    show (s.req.h.buf.drop s.bufEnd).take (s.readed - s.bufEnd) = _
    rw [hend, hreaded, ← drop_take, h.stored]
  refine ⟨hend, ?_, ?_, ⟨hsize, ?_, ?_⟩⟩
  · calc s.req.h.buf.take s.bufEnd = (s.req.h.buf.take y.length).take head.length := by
          rw [take_take, hend, Nat.min_eq_left hwhole]
      _ = head := by rw [h.stored, hhead]
  · have := congrArg (drop head.length) h.stream
    rw [drop_append_of_le_length hwhole, drop_left] at this
    rw [hahead, this]
  · rintro pos len heq
    obtain ⟨rfl, rfl⟩ : s.bufEnd = pos ∧ s.readed - s.bufEnd = len := by
      injection heq with hp hl
      exact ⟨hp, hl⟩
    show s.bufEnd + (s.readed - s.bufEnd) ≤ s.req.h.buf.length ∧
      s.readed - s.bufEnd + icapHeaderReadsize ≤ s.req.h.buf.length
    omega
  · rintro data heq
    cases heq

end IcapHead

/-! ## The call -/

/-- The bytes that were read ahead are moved within the buffer, or into it from the buffer of the body. -/
theorem moveAhead_stored {a : Allocator} {q : HeadReq} (hq : q.Ready)
    (hmem : ∀ n ≤ q.ahead.length + 2 * icapHeaderReadsize, (a.buffer n).isSome = true) :
    ∃ q', moveAhead a q = .ok (.ec100, q') ∧
      ({ req := q', readed := q.ahead.length } : IcapHead).Stored q.ahead ∧
      q.ahead.length + icapHeaderReadsize ≤ q'.h.buf.length ∧ headsBufSize ≤ q'.h.buf.length := by
  have hsize := hq.size
  have hle : q.ahead.length ≤ q.h.buf.length := by
    unfold HeadReq.ahead
    split
    · exact Nat.zero_le _
    · rw [length_take, length_drop]
      omega
    · rename_i data heq
      have := hq.other data heq
      unfold headsBufSize at hsize
      unfold bufSize at this
      omega
  obtain ⟨h', heq, -, hroom, hgrow, hsame⟩ := icapHeaderCheckRealloc_room hle hmem
  have hstore : h'.store 0 q.ahead = .ok { h' with buf := write h'.buf 0 q.ahead } := by
    rw [HeaderBuf.store, if_pos (by omega)]
  have hlen : (write h'.buf 0 q.ahead).length = h'.buf.length := length_write (by omega)
  refine ⟨{ q with h := { h' with buf := write h'.buf 0 q.ahead }, pstrblockRead := .none }, ?_, ?_, ?_, ?_⟩
  · have hvalid : q.dangles h' = false := by
      unfold HeadReq.dangles
      split
      · -- the bytes leave room for a read, so the buffer has not been reallocated
        rename_i pos len hptr
        have hown := (hq.own pos len hptr).2
        have hlen : q.ahead.length ≤ len := by
          unfold HeadReq.ahead
          rw [hptr]
          exact length_take_le _ _
        rw [hsame (by omega)]
        simp
      · rfl
    unfold moveAhead
    rw [heq]
    dsimp only
    rw [hvalid, hstore]
    rfl
  · refine ⟨rfl, ?_, ?_⟩
    · show q.ahead.length ≤ (write h'.buf 0 q.ahead).length
      omega
    · rw [write, take_zero, nil_append, take_left]
  · show q.ahead.length + icapHeaderReadsize ≤ (write h'.buf 0 q.ahead).length
    omega
  · show headsBufSize ≤ (write h'.buf 0 q.ahead).length
    omega

theorem IcapHead.waiting_nil {q : HeadReq} (hq : q.Ready) : ({ req := q } : IcapHead).Waiting [] := by
  have hsize := hq.size
  refine ⟨⟨rfl, Nat.zero_le _, take_zero⟩, rfl, ?_, rfl⟩
  show 0 + icapHeaderReadsize ≤ q.h.buf.length
  unfold headsBufSize at hsize
  unfold icapHeaderReadsize
  omega

/-- Wherever the stream is cut and whatever part of it was read ahead, the call returns with the head in
the buffer, up to and including its first empty line. The bytes behind it are kept in their order: first
those that were received, then those still to be read. -/
theorem readIcapHeader_exact {a : Allocator} {pipelining : Bool} {q : HeadReq} {reads : List (List UInt8)}
    {head rest : List UInt8} (hq : q.Ready) (hreads : ∀ r ∈ reads, r.length ≤ icapHeaderReadsize)
    (hstream : (if pipelining then q.ahead else []) ++ reads.flatten = head ++ rest)
    (hhead : EndsHead head)
    (hmem : ∀ n ≤ max head.length q.ahead.length + 2 * icapHeaderReadsize, (a.buffer n).isSome = true) :
    ∃ (q' : HeadReq) (more : List (List UInt8)),
      readIcapHeader a pipelining q (reads.map some) = .ok (some (.ec100, q', more.map some)) ∧
      q'.h.bufused = head.length ∧ q'.h.buf.take q'.h.bufused = head ∧
      q'.ahead ++ more.flatten = rest ∧ q'.Ready := by
  have hfour := hhead.four_le
  have hmem' : ∀ n ≤ head.length + 2 * icapHeaderReadsize, (a.buffer n).isSome = true :=
    fun n hn => hmem n (by omega)
  unfold readIcapHeader
  by_cases hpre : pipelining = true ∧ q.ahead ≠ []
  · obtain ⟨rfl, hne⟩ := hpre
    rw [if_pos rfl] at hstream
    rw [if_pos ⟨rfl, hne⟩]
    obtain ⟨q₁, hmove, hstored, hroom, hsize⟩ := moveAhead_stored (a := a) hq fun n hn => hmem n (by omega)
    rw [hmove]
    -- the first search is in the bytes that were read ahead
    have hsearch := hhead.search 0 hstream (Nat.zero_le _) hfour
    rcases hstored.search_cases q.ahead.length 0 rfl (by dsimp only; omega) (by dsimp only; omega)
      (by dsimp only; omega) (fun hnone n hn => hmem' n (by have := hsearch.2 hnone; omega)) with
      ⟨i, hfind, heq⟩ | ⟨hfind, s', heq, hw, hgrow⟩
    · have hfound : ({ req := q₁, readed := q.ahead.length, bufEnd := head.length } : IcapHead).Found
          head rest q.ahead reads.flatten :=
        ⟨{ hstored with }, hstream, rfl, (hsearch.1 i hfind).2⟩
      refine ⟨_, reads, ?_, hfound.leave hsize (by dsimp only; omega)⟩
      show (do
        match ← IcapHead.search a _ _ with
        | (none, s) => s.rounds a _
        | (some status, s) => pure (some (s.ended status _))) = _
      rw [heq, (hsearch.1 i hfind).1]
      rfl
    · obtain ⟨t, y, more, hrun, hfound, hy, ht⟩ := hw.rounds_head hhead reads hreads hmem'
        (hsearch.2 hfind) hstream
      have hsize' : headsBufSize ≤ t.req.h.buf.length := hsize.trans (hgrow.trans ht)
      refine ⟨t.leave, more, ?_, hfound.leave hsize' ?_⟩
      · show (do
          match ← IcapHead.search a _ _ with
          | (none, s) => s.rounds a _
          | (some status, s) => pure (some (s.ended status _))) = _
        rw [heq]
        exact hrun
      · unfold headsBufSize at hsize'
        unfold icapHeaderReadsize at hy ⊢
        omega
  · rw [if_neg hpre]
    have hnil : (if pipelining then q.ahead else []) = [] := by
      split
      · rename_i hp
        by_contra hne
        exact hpre ⟨hp, hne⟩
      · rfl
    rw [hnil] at hstream
    obtain ⟨t, y, more, hrun, hfound, hy, ht⟩ := (IcapHead.waiting_nil hq).rounds_head hhead reads hreads
      hmem' (by simp only [length_nil]; omega) hstream
    have hsize : headsBufSize ≤ t.req.h.buf.length := hq.size.trans ht
    refine ⟨t.leave, more, hrun, hfound.leave hsize ?_⟩
    unfold headsBufSize at hsize
    unfold icapHeaderReadsize at hy ⊢
    omega

/-- A head whose empty line is cut in three: its beginning was read ahead. -/
theorem readIcapHeader_exact_cut :
    ∃ (q' : HeadReq) (more : List (List UInt8)), readIcapHeader {} true
        { h := ⟨0, replicate headsBufSize 0, 0, [], headerStartSize, false⟩
          pstrblockRead := .other (bytes "OPTIONS\r\n") }
        ([bytes "\r", bytes "\nX", bytes "Y"].map some) = .ok (some (.ec100, q', more.map some)) ∧
      q'.h.bufused = 11 ∧ q'.h.buf.take q'.h.bufused = bytes "OPTIONS\r\n\r\n" ∧
      q'.ahead ++ more.flatten = bytes "XY" ∧ q'.Ready := by
  refine @readIcapHeader_exact _ _ _ [bytes "\r", bytes "\nX", bytes "Y"] (bytes "OPTIONS\r\n\r\n") _
    ⟨?_, ?_, ?_⟩ ?_ rfl rfl fun _ _ => rfl
  · exact (length_replicate ..).ge
  · rintro pos len heq
    cases heq
  · rintro data heq
    cases heq
    decide
  · decide

end CIcap
