import CIcap.Chunk.Rounds
import CIcap.Client.Response
import CIcap.Client.Send

/-! # What the client receives

The invariant of the receiving side of the client library. What has been read of the head or of
the encapsulated headers and the bytes that are still to come make up the response; behind them
the chunk parser stands at a position of the body, and the writer has taken all data before it
(`client_receives_body`).
-/

namespace CIcap

open CText Chunked List

/-! ## The pieces the parser hands out -/

/-- The parser hands out a part of the read buffer. -/
theorem parseChunkData_short {r r' : Reader} {ret : ChunkRet} {w : Option (List UInt8)}
    (hcall : parseChunkData r = (ret, w, r')) (herr : ret ≠ .error ∧ ret ≠ .wild) :
    (w.getD []).length ≤ r.pstrblockRead.length ∧
      r'.pstrblockRead.length ≤ r.pstrblockRead.length := by
  unfold parseChunkData at hcall
  split_ifs at hcall
  · cases hcall
    exact absurd rfl herr.1
  obtain ⟨P, hP⟩ : ∃ P : Option (List UInt8) → Reader → Prop, P = fun w s =>
      (w.getD []).length ≤ r.pstrblockRead.length ∧
        s.pstrblockRead.length ≤ r.pstrblockRead.length := ⟨_, rfl⟩
  have hrule := parseChunkLoop_rounds (P := P) (M := P)
    (Q := fun ret w s => ret ≠ .error ∧ ret ≠ .wild → P w s) ?_ ?_ ?_ (fun _ _ h _ => h)
    (fun _ _ h _ => h) (r.pstrblockRead.length + 1) (w := none) (r := r) (by simp [hP])
  · rw [hcall, hP] at hrule
    exact hrule herr
  · refine ⟨fun _ _ h _ _ => h, fun _ _ h _ _ _ => h, fun _ _ h _ _ _ _ => h, fun _ _ h _ => h,
      fun _ s w' s' m h _ _ _ hround => ?_⟩
    have hnext : P (some w') s' := by
      rw [hP] at h ⊢
      rw [hround.data, hround.taken]
      refine ⟨(length_take_le' _ _).trans h.2, ?_⟩
      simp only [takeChunkData, length_drop]
      omega
    exact ⟨fun _ _ => hnext, fun _ => hnext⟩
  · intro _ s ret s' h _ hround herr'
    cases hround with
    | incomplete => exact h
    | waits => rw [hP] at h ⊢; exact h
    | fails hret => exact absurd hret (by simp [herr'])
  · intro _ s s' h _ hround
    rw [hP] at h ⊢
    cases hround <;> exact ⟨h.1, ((drop_sublist _ _).length_le).trans h.2⟩

/-! ## The writer -/

/-- A writer that takes nothing or all it is offered, which is a part of the read buffer. -/
def Writer.Whole (w : Writer) : Prop := ∀ k, some k ∈ w → k = 0 ∨ bufSize ≤ k

section Writer

variable (buf : List UInt8) (w : Writer) (taken : List UInt8)

theorem destWrite_zero : destWrite buf w 0 taken = (some (), w, 0, taken) := by
  cases w with
  | nil => rfl
  | cons a w => cases a <;> rfl

theorem destWrite_nil {n : Nat} (hn : n ≠ 0) :
    destWrite buf [] n taken = (some (), [], 0, taken ++ buf.take n) := by
  cases n with
  | zero => exact absurd rfl hn
  | succ n => rfl

theorem destWrite_cons (a : Option Nat) {n : Nat} (hn : n ≠ 0) :
    destWrite buf (a :: w) n taken = match a with
      | none => (none, w, n, taken)
      | some k => destWrite buf w (n - min k n) (taken ++ buf.take (min k n)) := by
  cases n with
  | zero => exact absurd rfl hn
  | succ n => cases a <;> rfl

end Writer

/-- The loop over a writer that takes nothing or all hands over the data once. -/
theorem destWrite_whole {buf : List UInt8} (hbuf : buf.length ≤ bufSize) {w : Writer}
    (hw : w.Whole) (taken : List UInt8) :
    ∃ ok w' pending taken', destWrite buf w buf.length taken = (ok, w', pending, taken') ∧
      Writer.Whole w' ∧ (ok = some () → pending = 0 ∧ taken' = taken ++ buf) := by
  by_cases hn : buf.length = 0
  · rw [hn, destWrite_zero]
    refine ⟨_, _, _, _, rfl, hw, fun _ => ⟨rfl, ?_⟩⟩
    rw [length_eq_zero_iff.mp hn, append_nil]
  induction w with
  | nil =>
    rw [destWrite_nil buf taken hn, take_length]
    exact ⟨_, _, _, _, rfl, hw, fun _ => ⟨rfl, rfl⟩⟩
  | cons a w ih =>
    have hw' : Writer.Whole w := fun k hk => hw k (mem_cons_of_mem _ hk)
    rw [destWrite_cons buf w taken a hn]
    cases a with
    | none => exact ⟨_, _, _, _, rfl, hw', fun hok => (by cases hok)⟩
    | some k =>
      dsimp only
      rcases hw k (by simp) with rfl | hk
      · rw [Nat.zero_min, take_zero, append_nil]
        exact ih hw'
      · rw [Nat.min_eq_right (hbuf.trans hk), Nat.sub_self, destWrite_zero, take_length]
        exact ⟨_, _, _, _, rfl, hw', fun _ => ⟨rfl, rfl⟩⟩

/-! ## The phases of a response -/

/-- The bytes that have not been parsed. -/
def Client.unread (c : Client) : List UInt8 := c.req.rd.pstrblockRead ++ c.input

/-- Nothing of the body has been read. -/
structure Client.Quiet (c : Client) : Prop where
  writer : Writer.Whole c.writer
  pending : c.req.rd.writeToModulePending = 0
  accepted : c.accepted = []
  line : c.req.rd.currentChunkLen = c.req.rd.chunkBytesRead
  short : c.req.rd.pstrblockRead.length ≤ bufSize

/-- The client stands at the position `p` of the body, and the writer has taken all before it. -/
structure BodyAt (r : Response) (rest : List UInt8) (c : Client) (p : Pos) : Prop where
  at_pos : c.req.rd.At p
  fits : ∀ chunk ∈ p.chunks, ChunkFits chunk
  stream : c.unread = p.bytes r.last.enc ++ rest
  taken : body r.chunks = c.accepted ++ p.left
  writer : Writer.Whole c.writer
  pending : c.req.rd.writeToModulePending = 0
  short : c.req.rd.pstrblockRead.length ≤ bufSize

/-- The response `r`, with `rest` behind it, is being read. -/
inductive Reading (r : Response) (rest : List UInt8) (c : Client) : Prop where
  | head (hs : c.status = .getNothing) (hq : c.Quiet) (hes : c.req.entities = [])
      (hstream : c.head ++ c.unread = r.bytes ++ rest)
      (hlen : c.head.length + 4 ≤ r.head.length)
  | headers (hs : c.status = .getHeaders) (hq : c.Quiet)
      (hes : c.req.entities.map Entity.entry = r.entities.map Entity.entry)
      (hstream : c.head ++ c.unread = r.block ++ (enc r.chunks ++ r.last.enc ++ rest))
      (hlen : c.head.length < r.block.length)
  | body (hs : c.status = .getBody) (p : Pos) (hp : p ≠ .finished) (h : BodyAt r rest c p)
  | ended (hs : c.status = .getTrailers ∨ c.status = .endOfResponse)
      (hacc : c.accepted = body r.chunks)

/-- A function of the receiving side fails or goes on with the response. -/
def ReadsOn (r : Response) (rest : List UInt8) (res : ClientRet × Client) : Prop :=
  res.1 = .error ∨ res.1 = .fault ∨ (res.1 ≠ .noContent ∧ Reading r rest res.2)

section Reading

variable {r : Response} {rest : List UInt8} {c : Client}

/-! ### The body -/

theorem parseIcapHeader_frame (c : Client) :
    c.parseIcapHeader.2.accepted = c.accepted ∧ c.parseIcapHeader.1 ≠ .noContent := by
  unfold Client.parseIcapHeader
  dsimp only
  split_ifs
  · exact ⟨rfl, by simp⟩
  · split
    all_goals exact ⟨rfl, by simp⟩

theorem parseTrailers_readsOn (hs : c.status = .getTrailers) (hacc : c.accepted = body r.chunks) :
    ReadsOn r rest c.parseTrailers := by
  obtain ⟨hkeep, hret⟩ := parseIcapHeader_frame c
  have hst := (Client.parseIcapHeader_reads c).2
  unfold Client.parseTrailers
  split
  · rename_i d heq
    rw [heq] at hkeep
    exact .inr (.inr ⟨by simp, .ended (.inr rfl) (hkeep.trans hacc)⟩)
  · exact .inr (.inr ⟨hret, .ended (.inl (hst.trans hs)) (hkeep.trans hacc)⟩)

theorem bodyRead_readsOn (hacc : c.accepted = body r.chunks) : ReadsOn r rest c.bodyRead := by
  unfold Client.bodyRead
  split_ifs
  · dsimp only
    split_ifs
    · exact .inr (.inr ⟨by simp, .ended (.inl rfl) hacc⟩)
    · exact parseTrailers_readsOn rfl hacc
  · exact .inr (.inr ⟨by simp, .ended (.inr rfl) hacc⟩)

/-- The loop over the body: one call of the parser, and all it hands out is written. -/
theorem bodyLoop_readsOn (ht : r.last.Fits) (fuel : Nat) : ∀ {c : Client} {p : Pos},
    c.status = .getBody → p ≠ .finished → BodyAt r rest c p →
    ReadsOn r rest (Client.bodyLoop fuel c) := by
  induction fuel with
  | zero => intro c p _ _ _; exact .inr (.inl rfl)
  | succ fuel ih =>
    intro c p hs hp h
    obtain ⟨ret, w, rd, p', hcall, hpend, hspec⟩ := parseChunkData_spec ht h.at_pos hp h.fits
      h.stream h.pending
    obtain ⟨hwlen, hblk⟩ := parseChunkData_short hcall hspec.no_error
    obtain ⟨ok, writer, pending, taken, hdest, hwriter, hok⟩ :=
      destWrite_whole (hwlen.trans h.short) h.writer []
    have hwrite : ({ c with req := { c.req with rd := rd } } : Client).writeData (w.getD []) =
        (ok, { c with
          writer := writer
          accepted := c.accepted ++ taken
          req := { c.req with rd := { rd with writeToModulePending := pending } } }) := by
      unfold Client.writeData
      rw [hpend, hdest]
    -- when all is written, the client stands at the position the parser has come to
    have hnext : ok = some () → BodyAt r rest { c with
        writer := writer
        accepted := c.accepted ++ taken
        req := { c.req with rd := { rd with writeToModulePending := pending } } } p' := by
      intro hsome
      obtain ⟨hzero, htaken⟩ := hok hsome
      exact
        { at_pos := by have := hspec.moves.at_pos; cases p' <;> exact this
          fits := fun chunk hc => h.fits chunk (hspec.moves.chunks chunk hc)
          stream := hspec.moves.stream
          taken := by
            rw [h.taken, hspec.moves.left, htaken, nil_append, append_assoc]
          writer := hwriter
          pending := hzero
          short := hblk.trans h.short }
    rw [Client.bodyLoop, hcall]
    dsimp only
    rw [hwrite]
    cases ok with
    | none => cases hret : ret <;> first | exact .inl rfl | exact absurd hret hspec.no_error.2
    | some u =>
      have hnext := hnext rfl
      cases hret : ret with
      | error => exact absurd hret hspec.no_error.1
      | wild => exact absurd hret hspec.no_error.2
      | ok => exact ih hs (hspec.ok hret).2 hnext
      | needsMore =>
        refine .inr (.inr ⟨by simp, .body hs p' (fun hfin => ?_) hnext⟩)
        rw [hspec.eof_iff.mpr hfin] at hret
        cases hret
      | eof =>
        refine bodyRead_readsOn ?_
        have htaken := hnext.taken
        rw [hspec.eof_iff.mp hret] at htaken
        simpa [Pos.left] using htaken.symm

theorem startBody_readsOn (ht : r.last.Fits) (hcs : ∀ chunk ∈ r.chunks, ChunkFits chunk)
    (hq : c.Quiet) (hstream : c.unread = enc r.chunks ++ r.last.enc ++ rest) :
    ReadsOn r rest c.startBody := by
  have hat : BodyAt r rest { c with status := .getBody } (.line r.chunks) :=
    { hq with
      at_pos := hq.line
      fits := hcs
      stream := hstream
      taken := by
        rw [hq.accepted]
        rfl }
  unfold Client.startBody
  dsimp only
  split_ifs
  · exact .inr (.inr ⟨by simp, .body rfl _ (by simp) hat⟩)
  · exact bodyLoop_readsOn ht _ rfl (by simp) hat

/-! ### The encapsulated headers -/

theorem takeHead_stream (c : Client) (n : Nat) :
    (c.takeHead n).head ++ (c.takeHead n).unread = c.head ++ c.unread := by
  simp only [Client.takeHead, Client.unread, ← append_assoc]
  rw [append_assoc c.head, take_append_drop]

theorem takeHead_length (c : Client) {n : Nat} (hn : n ≤ c.req.rd.pstrblockRead.length) :
    (c.takeHead n).head.length = c.head.length + n := by
  simp [Client.takeHead, hn]

theorem Client.Quiet.takeHead (hq : c.Quiet) (n : Nat) : (c.takeHead n).Quiet :=
  { hq with
    short := by
      have hshort := hq.short
      simp only [Client.takeHead, length_drop]
      omega }

/-- The entities of a response with a header block. -/
theorem Response.two_entities (hb : r.block ≠ []) {es : List Entity}
    (hes : es.map Entity.entry = r.entities.map Entity.entry) :
    ∃ e b, es = [e, b] ∧ b.start - e.start = r.block.length ∧ b.type ≠ .nullBody := by
  unfold Response.entities at hes
  unfold Response.block at hb ⊢
  cases hh : r.header with
  | none =>
    rw [hh] at hb
    exact absurd rfl hb
  | some p =>
    rw [hh] at hes
    obtain ⟨e, es', rfl, he, hes⟩ := map_eq_cons_iff.mp hes
    obtain ⟨b, es'', rfl, hb', hes⟩ := map_eq_cons_iff.mp hes
    obtain rfl := map_eq_nil_iff.mp hes
    obtain ⟨htype, hstart⟩ := Prod.mk.inj hb'
    obtain ⟨-, hzero⟩ := Prod.mk.inj he
    refine ⟨e, b, rfl, ?_, ?_⟩
    · rw [hstart, hzero]
      simp
    · rw [htype]
      rcases r.body_type with h | h <;> simp [h]

/-- `client_parse_encaps_header` inside a block `b`: it fails, or takes a part of the block, or
the rest of it. -/
theorem parseEncapsHeader_spec {b tail : List UInt8} (hstream : c.head ++ c.unread = b ++ tail)
    (hlen : c.head.length < b.length) :
    (∃ ret c', c.parseEncapsHeader b.length = (ret, c') ∧ (ret = .error ∨ ret = .fault)) ∨
    (∃ n, c.parseEncapsHeader b.length = (.needsMore, c.takeHead n) ∧
      (c.takeHead n).head.length < b.length) ∨
    ∃ n head, c.parseEncapsHeader b.length = (.ok, { c.takeHead n with head := head }) ∧
      (c.takeHead n).unread = tail := by
  have hrem : ((b.length : Int) - c.head.length).toNat = b.length - c.head.length := by omega
  unfold Client.parseEncapsHeader
  rw [if_neg (by omega), if_neg (by omega), hrem]
  generalize hn : min (b.length - c.head.length) c.req.rd.pstrblockRead.length = n
  have htaken := takeHead_length c (n := n) (by omega)
  by_cases hroom : c.headRoom < c.head.length + n
  · rw [if_pos hroom]
    exact .inl ⟨_, _, rfl, .inr rfl⟩
  rw [if_neg hroom]
  by_cases hmore : ((c.takeHead n).head.length : Int) < b.length
  · rw [if_pos hmore]
    exact .inr (.inl ⟨n, rfl, by omega⟩)
  · rw [if_neg hmore]
    have hall : (c.takeHead n).unread = tail :=
      (append_inj ((takeHead_stream c n).trans hstream) (by omega)).2
    split_ifs
    · exact .inl ⟨_, _, rfl, .inr rfl⟩
    · exact .inr (.inr ⟨n, _, rfl, hall⟩)
    · exact .inl ⟨_, _, rfl, .inl rfl⟩

/-- A part of the header block, or all of it, is read. -/
theorem getHeaders_readsOn (ht : r.last.Fits) (hcs : ∀ chunk ∈ r.chunks, ChunkFits chunk)
    (hs : c.status = .getHeaders) (hq : c.Quiet)
    (hes : c.req.entities.map Entity.entry = r.entities.map Entity.entry)
    (hstream : c.head ++ c.unread = r.block ++ (enc r.chunks ++ r.last.enc ++ rest))
    (hlen : c.head.length < r.block.length) : ReadsOn r rest c.getHeaders := by
  have hblock : r.block ≠ [] := ne_nil_of_length_pos (by omega)
  obtain ⟨e, b, hent, hsize, hb⟩ := Response.two_entities hblock hes
  unfold Client.getHeaders
  rw [hent]
  dsimp only
  rw [hsize]
  rcases parseEncapsHeader_spec hstream hlen with
    ⟨ret, c', hres, hret⟩ | ⟨n, hres, hmore⟩ | ⟨n, head, hres, hall⟩
  · rw [hres]
    rcases hret with rfl | rfl
    · exact .inl rfl
    · exact .inr (.inl rfl)
  · rw [hres]
    exact .inr (.inr ⟨by simp, .headers hs (hq.takeHead n) hes
      ((takeHead_stream c n).trans hstream) hmore⟩)
  rw [hres]
  have hq' := hq.takeHead n
  have hquiet : ({ c.takeHead n with head := head } : Client).Quiet :=
    ⟨hq'.writer, hq'.pending, hq'.accepted, hq'.line, hq'.short⟩
  show ReadsOn r rest (Client.headersRead _ e b [])
  rw [Client.headersRead, if_neg hb]
  refine startBody_readsOn ht hcs ?_ hall
  exact ⟨hquiet.writer, rfl, hquiet.accepted, rfl, hquiet.short⟩

/-! ### The head -/

/-- Without a header block the body is the only entity. -/
theorem Response.one_entity (hb : r.block = []) {es : List Entity}
    (hes : es.map Entity.entry = r.entities.map Entity.entry) : ∃ b, es = [b] := by
  unfold Response.entities at hes
  cases hh : r.header with
  | none =>
    rw [hh] at hes
    obtain ⟨b, es', rfl, -, hes⟩ := map_eq_cons_iff.mp hes
    obtain rfl := map_eq_nil_iff.mp hes
    exact ⟨b, rfl⟩
  | some p =>
    obtain ⟨-, hend, -⟩ := r.header_block p.1 p.2 hh
    have hnil : p.2 = [] := by
      unfold Response.block at hb
      rw [hh] at hb
      exact hb
    rw [hnil] at hend
    exact absurd hend (by decide)

/-- The entities of a response: the header block is next, or the body. -/
theorem startEntities_readsOn (ht : r.last.Fits) (hcs : ∀ chunk ∈ r.chunks, ChunkFits chunk)
    (hq : c.Quiet) (hes : c.req.entities.map Entity.entry = r.entities.map Entity.entry)
    (hhead : c.head = [])
    (hstream : c.unread = r.block ++ (enc r.chunks ++ r.last.enc ++ rest)) :
    ReadsOn r rest c.startEntities := by
  unfold Client.startEntities
  by_cases hblock : r.block = []
  · obtain ⟨b, hent⟩ := Response.one_entity hblock hes
    rw [hent]
    rw [hblock] at hstream
    exact startBody_readsOn ht hcs hq hstream
  obtain ⟨e, b, hent, hsize, hb⟩ := Response.two_entities hblock hes
  have hlen : c.head.length < r.block.length := by
    rw [hhead]
    exact length_pos_iff.mpr hblock
  have hstream' : c.head ++ c.unread = r.block ++ (enc r.chunks ++ r.last.enc ++ rest) := by
    rw [hhead]
    exact hstream
  rw [hent]
  dsimp only
  unfold Client.setSize
  split_ifs
  · exact getHeaders_readsOn ht hcs rfl
      { hq with } hes hstream' hlen
  · exact getHeaders_readsOn ht hcs rfl
      { hq with } hes hstream' hlen

theorem takeHead_zero (c : Client) : c.takeHead 0 = c := by
  simp [Client.takeHead]

/-- `client_parse_icap_header` inside a head: it takes a part that has no byte of the end of the
head, or all of it. -/
theorem parseIcapHeader_spec {h tail : List UInt8} (hh : EndsHead h)
    (hstream : c.head ++ c.unread = h ++ tail) (hlen : c.head.length + 4 ≤ h.length) :
    (∃ n, c.parseIcapHeader = (.needsMore, c.takeHead n) ∧
      (c.takeHead n).head.length + 4 ≤ h.length) ∨
    ∃ n, c.parseIcapHeader = (.ok, { c.takeHead n with head := h.take (h.length - 2) }) ∧
      (c.takeHead n).unread = tail := by
  obtain ⟨hsome, hnone⟩ := hh.window (x := c.head) (b := c.req.rd.pstrblockRead) (i := c.input)
    (by rw [append_assoc]; exact hstream) hlen
  unfold Client.parseIcapHeader
  by_cases hfour : c.req.rd.pstrblockRead.length < 4
  · rw [if_pos hfour]
    exact .inl ⟨0, by rw [takeHead_zero], by rw [takeHead_zero]; exact hlen⟩
  rw [if_neg hfour]
  cases hfind : findEoh c.req.rd.pstrblockRead with
  | none =>
    refine .inl ⟨c.req.rd.pstrblockRead.length - 3, rfl, ?_⟩
    have hlt := hnone hfind
    rw [takeHead_length c (by omega)]
    omega
  | some i =>
    have hend := hsome i hfind
    have hin := (findEoh_eq_some_iff.mp hfind).1.le
    have htaken := takeHead_length c (n := i + 4) hin
    obtain ⟨hhead, hrest⟩ := append_inj ((takeHead_stream c (i + 4)).trans hstream) (by omega)
    refine .inr ⟨i + 4, ?_, hrest⟩
    dsimp only
    rw [hhead]

theorem headRead_readsOn (ht : r.last.Fits) (hcs : ∀ chunk ∈ r.chunks, ChunkFits chunk)
    (hq : c.Quiet) (hes : c.req.entities = []) (hhead : c.head = linesText r.lines)
    (hstream : c.unread = r.block ++ (enc r.chunks ++ r.last.enc ++ rest)) :
    ReadsOn r rest c.headRead := by
  obtain ⟨hscan, -⟩ := r.read_head hhead hes
  obtain ⟨-, c', hread, hentries, -, hside⟩ :=
    r.read_head (c := { c with returnCode := r.first.status }) hhead hes
  have hrd : c'.req.rd = c.req.rd := congrArg ReadSide.rd hside
  have hinput : c'.input = c.input := congrArg ReadSide.input hside
  have hquiet : c'.Quiet :=
    { writer := by rw [show c'.writer = c.writer from congrArg ReadSide.writer hside]; exact hq.writer
      pending := by rw [hrd]; exact hq.pending
      accepted := (show c'.accepted = c.accepted from congrArg ReadSide.accepted hside).trans
        hq.accepted
      line := by rw [hrd]; exact hq.line
      short := by rw [hrd]; exact hq.short }
  unfold Client.headRead
  rw [hscan]
  dsimp only
  rw [if_neg fun h => r.final.2 h.2, hread]
  refine startEntities_readsOn ht hcs hquiet hentries (congrArg ReadSide.head hside) ?_
  unfold Client.unread
  rw [hrd, hinput]
  exact hstream

/-- **One call of `client_parse_incoming_data`** keeps the phases of the response. -/
theorem parseIncomingData_readsOn (ht : r.last.Fits)
    (hcs : ∀ chunk ∈ r.chunks, ChunkFits chunk) (h : Reading r rest c) :
    ReadsOn r rest c.parseIncomingData := by
  unfold Client.parseIncomingData
  cases h with
  | head hs hq hes hstream hlen =>
    rw [hs]
    have hstream' : c.head ++ c.unread =
        r.head ++ (r.block ++ (enc r.chunks ++ r.last.enc ++ rest)) := by
      rw [hstream]
      simp [Response.bytes]
    rcases parseIcapHeader_spec r.endsHead hstream' hlen with ⟨n, hres, hmore⟩ | ⟨n, hres, hall⟩
    · rw [hres]
      exact .inr (.inr ⟨by simp, .head hs (hq.takeHead n) hes
        ((takeHead_stream c n).trans hstream) hmore⟩)
    · rw [hres]
      have hq' := hq.takeHead n
      have hquiet : ({ c.takeHead n with head := r.head.take (r.head.length - 2) } : Client).Quiet :=
        ⟨hq'.writer, hq'.pending, hq'.accepted, hq'.line, hq'.short⟩
      exact headRead_readsOn ht hcs hquiet hes (take_headText r.lines) hall
  | headers hs hq hes hstream hlen =>
    rw [hs]
    exact getHeaders_readsOn ht hcs hs hq hes hstream hlen
  | body hs p hp h =>
    rw [hs]
    exact bodyLoop_readsOn ht _ hs hp h
  | ended hs hacc =>
    rcases hs with hs | hs
    · rw [hs]
      exact parseTrailers_readsOn hs hacc
    · rw [hs]
      exact .inr (.inr ⟨by simp, .ended (.inr hs) hacc⟩)

end Reading

/-! ## Both directions -/

/-- The receiving side of two clients is the same, up to where the bytes to come are held. -/
structure SameRead (c c' : Client) : Prop where
  status : c'.status = c.status
  head : c'.head = c.head
  accepted : c'.accepted = c.accepted
  writer : c'.writer = c.writer
  entities : c'.req.entities = c.req.entities
  unread : c'.unread = c.unread
  chunkLen : c'.req.rd.currentChunkLen = c.req.rd.currentChunkLen
  chunkRead : c'.req.rd.chunkBytesRead = c.req.rd.chunkBytesRead
  pending : c'.req.rd.writeToModulePending = c.req.rd.writeToModulePending
  short : c.req.rd.pstrblockRead.length ≤ bufSize → c'.req.rd.pstrblockRead.length ≤ bufSize

section Both

variable {r : Response} {rest : List UInt8} {c c' : Client}

theorem Client.Quiet.congr (hq : c.Quiet) (h : SameRead c c') : c'.Quiet where
  writer := by rw [h.writer]; exact hq.writer
  pending := h.pending.trans hq.pending
  accepted := h.accepted.trans hq.accepted
  line := by rw [h.chunkLen, h.chunkRead]; exact hq.line
  short := h.short hq.short

theorem Reading.congr (hr : Reading r rest c) (h : SameRead c c') : Reading r rest c' := by
  cases hr with
  | head hs hq hes hstream hlen =>
    exact .head (h.status.trans hs) (hq.congr h) (h.entities.trans hes)
      (by rw [h.head, h.unread]; exact hstream) (by rw [h.head]; exact hlen)
  | headers hs hq hes hstream hlen =>
    exact .headers (h.status.trans hs) (hq.congr h) (by rw [h.entities]; exact hes)
      (by rw [h.head, h.unread]; exact hstream) (by rw [h.head]; exact hlen)
  | body hs p hp hb =>
    refine .body (h.status.trans hs) p hp ?_
    exact
      { at_pos := by
          have hat := hb.at_pos
          unfold Reader.At at hat ⊢
          rw [h.chunkLen, h.chunkRead]
          exact hat
        fits := hb.fits
        stream := h.unread.trans hb.stream
        taken := by rw [h.accepted]; exact hb.taken
        writer := by rw [h.writer]; exact hb.writer
        pending := h.pending.trans hb.pending
        short := h.short hb.short }
  | ended hs hacc =>
    exact .ended (by rw [h.status]; exact hs) (h.accepted.trans hacc)

theorem sendData_same {call : ClientCall} {needs : Bool}
    (h : c.sendData call = some (needs, c')) : SameRead c c' := by
  have hprep : ∀ {b : Bool} {d : Client}, c.prepereBodyChunk = some (b, d) → SameRead c d := by
    intro b d hd
    unfold Client.prepereBodyChunk at hd
    split at hd
    · cases hd
      exact ⟨rfl, rfl, rfl, rfl, rfl, rfl, rfl, rfl, rfl, id⟩
    split_ifs at hd
    · cases hd
      exact ⟨rfl, rfl, rfl, rfl, rfl, rfl, rfl, rfl, rfl, id⟩
    · split at hd
      · cases hd
      all_goals
        cases hd
        exact ⟨rfl, rfl, rfl, rfl, rfl, rfl, rfl, rfl, rfl, id⟩
  unfold Client.sendData at h
  split_ifs at h
  · split at h
    · cases h
    rename_i b d hd
    have hsame := hprep hd
    split_ifs at h
    · cases h
      exact hsame
    · obtain ⟨n, -, hn⟩ := Option.map_eq_some_iff.mp h
      cases hn
      exact { hsame with }
  · cases h
    exact ⟨rfl, rfl, rfl, rfl, rfl, rfl, rfl, rfl, rfl, id⟩

theorem netDataRead_same {k : Option Nat} (h : c.netDataRead k = some c') : SameRead c c' := by
  unfold Client.netDataRead at h
  split at h
  · cases h
  rename_i k
  obtain ⟨rd, hrd, rfl⟩ := Option.map_eq_some_iff.mp h
  unfold CIcap.netDataRead at hrd
  split_ifs at hrd with hfull
  obtain rfl := Option.some.inj hrd
  set got := c.input.take (min k (netReadRoom c.req.rd))
  have hsplit : got ++ c.input.drop got.length = c.input :=
    prefix_iff_eq_append.mp ( take_prefix _ _)
  refine ⟨rfl, rfl, rfl, rfl, rfl, ?_, rfl, rfl, rfl, fun _ => ?_⟩
  · simp only [Client.unread, append_assoc, hsplit]
  · have hroom : got.length ≤ netReadRoom c.req.rd :=
      (length_take_le _ _).trans (Nat.min_le_right _ _)
    unfold netReadRoom at hroom
    simp only [length_append]
    omega

/-- A call fails or goes on with the response; it is over only with the response. -/
def FilterOn (r : Response) (rest : List UInt8) (res : FilterRet × Client) : Prop :=
  res.1 = .error ∨ res.1 = .fault ∨
    (Reading r rest res.2 ∧ (res.1 = .done → res.2.status = .endOfResponse))

theorem action_done {needs : Bool} (h : c.action needs = .done) : c.status = .endOfResponse := by
  unfold Client.action at h
  dsimp only at h
  split_ifs at h with hwait
  by_contra hne
  simp [hne] at hwait

theorem sendAndGetData_on (ht : r.last.Fits) (hcs : ∀ chunk ∈ r.chunks, ChunkFits chunk)
    (h : Reading r rest c) (call : ClientCall) : FilterOn r rest (c.sendAndGetData call) := by
  unfold Client.sendAndGetData
  dsimp only
  generalize hc₁ : (if c.source = none then { c with eofSent := true } else c) = c₁
  have h₁ : Reading r rest c₁ := by
    rw [← hc₁]
    split_ifs
    · exact h.congr ⟨rfl, rfl, rfl, rfl, rfl, rfl, rfl, rfl, rfl, id⟩
    · exact h
  cases hsend : c₁.sendData call with
  | none => exact .inl rfl
  | some p =>
    obtain ⟨needs, c₂⟩ := p
    have h₂ := h₁.congr (sendData_same hsend)
    have hget : ReadsOn r rest (c₂.getData call) := by
      unfold Client.getData
      split_ifs
      · split
        · exact .inl rfl
        · rename_i c₃ hread
          exact parseIncomingData_readsOn ht hcs (h₂.congr (netDataRead_same hread))
      · exact .inr (.inr ⟨by simp, h₂⟩)
    dsimp only
    rcases hres : c₂.getData call with ⟨ret, c₃⟩
    rw [hres] at hget
    rcases hget with rfl | rfl | ⟨hno, hreading⟩
    · exact .inl rfl
    · exact .inr (.inl rfl)
    · cases ret with
      | error => exact .inl rfl
      | fault => exact .inr (.inl rfl)
      | noContent => exact absurd rfl hno
      | ok | needsMore => exact .inr (.inr ⟨hreading, action_done⟩)

end Both

end CIcap
