import CIcap.Client.Filter
import CIcap.Request.Frame

/-! # The two directions of the client

The functions of the client library that read the response leave what is to be written alone,
and those that write leave what has been read alone. `sendSide` and `readSide` are the two parts
of a client.
-/

namespace CIcap

open CText

def ClientStatus.receiving : ClientStatus → Bool
  | getNothing | getHeaders | getBody | getTrailers | endOfResponse => true
  | _ => false

/-- What the writing of a request works on. -/
structure SendSide where
  wire : List Seg
  block : Block
  source : Option Source
  eofSent : Bool
  continued : Bool
  preview : Int

/-- What the reading of a response works on. -/
structure ReadSide where
  rd : Reader
  input : List UInt8
  head : List UInt8
  headRoom : Nat
  writer : Writer
  accepted : List UInt8
  responseHeader : Headers
  allow204 : Bool

namespace Client

def sendSide (c : Client) : SendSide where
  wire := c.wire
  block := c.req.block
  source := c.source
  eofSent := c.eofSent
  continued := c.continued
  preview := c.req.preview

def readSide (c : Client) : ReadSide where
  rd := c.req.rd
  input := c.input
  head := c.head
  headRoom := c.headRoom
  writer := c.writer
  accepted := c.accepted
  responseHeader := c.req.responseHeader
  allow204 := c.req.allow204

/-! ## Reading -/

/-- From `c` to `c'` only the response has been read. -/
structure Reads (c c' : Client) : Prop where
  send : c'.sendSide = c.sendSide
  status : c.status.receiving = true → c'.status.receiving = true

theorem Reads.refl (c : Client) : Reads c c := ⟨rfl, id⟩

theorem Reads.trans {c d e : Client} (h : Reads c d) (h' : Reads d e) : Reads c e :=
  ⟨h'.send.trans h.send, fun hc => h'.status (h.status hc)⟩

theorem netDataRead_reads {c c' : Client} {read : Option Nat} (h : c.netDataRead read = some c') :
    Reads c c' := by
  unfold netDataRead at h
  split at h
  · cases h
  · obtain ⟨rd, -, rfl⟩ := Option.map_eq_some_iff.mp h
    exact ⟨rfl, id⟩

section

variable (c : Client)
include c

theorem parseIcapHeader_reads :
    Reads c c.parseIcapHeader.2 ∧ c.parseIcapHeader.2.status = c.status := by
  unfold parseIcapHeader
  dsimp only
  split_ifs
  · exact ⟨.refl c, rfl⟩
  · split <;> exact ⟨⟨rfl, id⟩, rfl⟩

theorem parseEncapsHeader_reads (size : Int) : Reads c (c.parseEncapsHeader size).2 := by
  unfold parseEncapsHeader
  dsimp only
  split_ifs <;> exact ⟨rfl, id⟩

theorem writeData_reads (data : List UInt8) : Reads c (c.writeData data).2 :=
  ⟨rfl, id⟩

theorem parseTrailers_reads : Reads c c.parseTrailers.2 := by
  have h := (parseIcapHeader_reads c).1
  unfold parseTrailers
  split
  · rename_i d heq
    rw [heq] at h
    exact h.trans ⟨rfl, fun _ => rfl⟩
  · exact h

theorem bodyRead_reads : Reads c c.bodyRead.2 := by
  have hstart : Reads c { c with status := .getTrailers } := ⟨rfl, fun _ => rfl⟩
  unfold bodyRead
  split_ifs
  · dsimp only
    split_ifs
    · exact hstart
    · exact hstart.trans (parseTrailers_reads _)
  · exact ⟨rfl, fun _ => rfl⟩

end

theorem bodyLoop_reads (fuel : Nat) : ∀ c : Client, Reads c (bodyLoop fuel c).2 := by
  induction fuel with
  | zero => intro c; exact .refl c
  | succ fuel ih =>
    intro c
    rcases hparse : parseChunkData c.req.rd with ⟨ret, data, rd⟩
    have h0 : Reads c { c with req := { c.req with rd := rd } } := ⟨rfl, id⟩
    have h1 := h0.trans (writeData_reads { c with req := { c.req with rd := rd } } (data.getD []))
    rw [bodyLoop, hparse]
    dsimp only
    split
    · exact h0
    · exact h0
    split
    · rename_i heq
      rw [heq] at h1
      exact h1
    · rename_i heq
      rw [heq] at h1
      split
      · exact h1.trans (bodyRead_reads _)
      · exact h1
      · exact h1.trans (ih _)

section

variable (c : Client)
include c

theorem startBody_reads : Reads c c.startBody.2 := by
  have h : Reads c { c with status := .getBody } := ⟨rfl, fun _ => rfl⟩
  unfold startBody
  dsimp only
  split_ifs
  · exact h
  · exact h.trans (bodyLoop_reads _ _)

theorem headersRead_reads (e body : Entity) (es : List Entity) :
    Reads c (c.headersRead e body es).2 := by
  unfold headersRead
  split_ifs
  · exact ⟨rfl, fun _ => rfl⟩
  · refine Reads.trans ?_ (startBody_reads _)
    exact ⟨rfl, id⟩

theorem getHeaders_reads : Reads c c.getHeaders.2 := by
  unfold getHeaders
  split
  · rename_i e body es _
    have h := parseEncapsHeader_reads c (body.start - e.start)
    split
    · rename_i heq
      rw [heq] at h
      exact h.trans (headersRead_reads _ _ _ _)
    · exact h
  · exact .refl c

theorem setSize_reads (size : Int) : Reads c (c.setSize size) := by
  unfold setSize
  split_ifs <;> exact ⟨rfl, id⟩

theorem startEntities_reads : Reads c c.startEntities.2 := by
  unfold startEntities
  split
  · exact .refl c
  · exact startBody_reads c
  · have h : Reads c { c with status := .getHeaders } := ⟨rfl, fun _ => rfl⟩
    exact (h.trans (setSize_reads _ _)).trans (getHeaders_reads _)

end

theorem responseEntities_reads {c c' : Client} (h : c.responseEntities = some c') :
    Reads c c' ∧ c'.status = c.status := by
  obtain ⟨line, -, rfl⟩ := Option.map_eq_some_iff.mp h
  refine ⟨⟨?_, id⟩, rfl⟩
  have honly := encapsLoop_entitiesOnly ((line.drop 13).length + 1) c.req 0 true
    ((line.drop 13).dropWhile isSpace)
  unfold sendSide processEncapsulated
  rw [honly]

theorem headRead_reads (c : Client) : Reads c c.headRead.2 := by
  unfold headRead
  split
  · exact .refl c
  rename_i status _
  have h : Reads c ({ c with returnCode := status } : Client).unpackResponse := ⟨rfl, id⟩
  dsimp only
  split_ifs
  · exact h.trans ⟨rfl, fun _ => rfl⟩
  · split
    · exact h
    · rename_i heq
      exact (h.trans (responseEntities_reads heq).1).trans (startEntities_reads _)

/-- The reading of the response leaves what is to be written alone. -/
theorem parseIncomingData_reads (c : Client) : Reads c c.parseIncomingData.2 := by
  unfold parseIncomingData
  split
  · have h := (parseIcapHeader_reads c).1
    split
    · rename_i heq
      rw [heq] at h
      exact h.trans (headRead_reads _)
    · exact h
  · exact getHeaders_reads c
  · exact bodyLoop_reads _ c
  · exact parseTrailers_reads c
  · exact .refl c

theorem getData_reads (c : Client) (call : ClientCall) : Reads c (c.getData call).2 := by
  unfold getData
  split_ifs
  · split
    · exact .refl c
    · rename_i heq
      exact (netDataRead_reads heq).trans (parseIncomingData_reads _)
  · exact .refl c

end Client

end CIcap
