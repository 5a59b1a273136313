import CIcap.Client.Exchange
import CIcap.Request.Answer

/-! # From the service to the client

What a service gives for the body of a response is what the client library hands to its caller.
-/

namespace CIcap

open CText Chunked List Pieces

variable {σ : Type} (cfg : Config σ)

section Fit

variable {cs : List (List UInt8)} (hlen : cs.flatten.length ≤ 2 ^ 31 - 3)
include hlen

/-- The chunks of a response can be read when its body is not too long. -/
theorem chunkBlocks_fit (h : ∀ d ∈ cs, d ≠ []) : ∃ chunks,
    (cs.map chunkBlock).flatMap Prod.snd = enc chunks ∧ body chunks = cs.flatten ∧
      ∀ k ∈ chunks, ChunkFits k := by
  induction cs with
  | nil => exact ⟨[], rfl, rfl, by simp⟩
  | cons d cs ih =>
    obtain ⟨hd, hcs⟩ := forall_mem_cons.mp h
    rw [flatten_cons, length_append] at hlen
    obtain ⟨chunks, he, hb, hfit⟩ := ih (by omega) hcs
    refine ⟨.ofData d hd :: chunks, ?_, ?_, forall_mem_cons.mpr ⟨⟨?_, ?_⟩, hfit⟩⟩
    · rw [map_cons, flatMap_cons, he]
      rfl
    · rw [body_cons, hb]
      rfl
    · show d.length ≤ 2 ^ 31 - 3
      omega
    · have hsize : (natText 16 d.length).length ≤ 8 :=
        natText_length_le (by omega) (by omega) (by omega)
      show (natText 16 d.length).length + 2 ≤ 4096
      omega

/-- What is queued for a response whose body has ended, as a client reads it. -/
theorem Queue.closed_fit {P : Premises} (hk : P.keeps) {r : Req σ} {q : List QBlock}
    (h : Queue P r.side .eof cs q) (hb : r.responceHasbody = true) :
    ∃ chunks, ∃ last : LastChunk, q.flatMap Prod.snd = r.responseHeader.buf ++ r.headerBlocks ++
      enc chunks ++ last.enc ∧ Chunked.body chunks = cs.flatten ∧ ∀ k ∈ chunks, ChunkFits k := by
  cases h with
  | heads _ hi => cases hi
  | bodiless _ hb' | simple hb' => cases hb.symm.trans hb'
  | @closed _ es last _ _ he hc hl =>
    obtain ⟨chunks, henc, hbody, hfit⟩ := chunkBlocks_fit hlen hc
    obtain ⟨t, rfl⟩ : ∃ t : LastChunk, last = t.enc := by
      rcases hl with rfl | ⟨n, rfl⟩
      · exact ⟨.plain, rfl⟩
      · exact ⟨.useOriginalBody n, rfl⟩
    refine ⟨chunks, t, ?_, hbody, hfit⟩
    simp only [flatMap_cons, flatMap_append, flatMap_nil, append_nil, henc,
      he.flatMap hk, Req.headerBlocks, append_assoc]
    rfl

end Fit

/-- A request to the service that answers with two bytes, processed to the end. -/
def helloRun : Run Bool :=
  Machine.run (Run.step (.only helloService))
    (.begin .alloc { input := sampleHead ++ (bytes "0" ++ crlf ++ crlf) } false)
    (sampleTicks ++ replicate 13 (tick 5 512))

/-- Its head as a client reads it. -/
def helloResponse : Response :=
  { sampleResponse with
    before := [bytes "Server: C-ICAP/0.6.4", bytes "Connection: keep-alive",
      bytes "ISTag: \"CI00011\""]
    after := []
    header := none
    before_lines := by
      intro l hl
      simp only [mem_cons, not_mem_nil, or_false] at hl
      rcases hl with rfl | rfl | rfl
      all_goals exact ⟨⟨by decide, by decide, by decide +kernel⟩, by decide +kernel⟩
    after_lines := sampleContinue.plain
    header_block := by simp }

/-- A client that reads that response. -/
def helloClient : Client where
  req := { type := some .reqmod, service := bytes "s", reqServer := bytes "h" }
  input := content helloRun.net.final

end CIcap
