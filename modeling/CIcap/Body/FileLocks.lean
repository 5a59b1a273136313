import CIcap.Body.SimpleFile

/-! # The locks of the simple file

A service that must not send bytes yet locks the file (`ci_simple_file_lock_all`) and opens it up
to a position (`ci_simple_file_unlock`). The counters `bytesIn` and `bytesOut` are the positions of
the writes and the reads in what goes through the file, also where the file is used as a ring.
-/

namespace CIcap.SimpleFile

open List

/-- `ci_simple_file_lock_all` -/
def lockAll (b : SimpleFile) : SimpleFile := { b with useLock := true, unlocked := 0 }

/-- `ci_simple_file_unlock` -/
def unlock (b : SimpleFile) (len : Int) : SimpleFile :=
  { b with unlocked := if len < b.readpos then b.readpos else len }

/-- `ci_simple_file_unlock_all` -/
def unlockAll (b : SimpleFile) : SimpleFile := { b with useLock := false, unlocked := 0 }

/-- A call of the interface of the file. -/
inductive Call where
  | data (o : Op)
  | lockAll
  | unlock (len : Int)
  | unlockAll

def call (b : SimpleFile) : Call → SimpleFile
  | .data o => (b.op o).1
  | .lockAll => b.lockAll
  | .unlock len => b.unlock len
  | .unlockAll => b.unlockAll

/-- The assertions of a call. -/
def Asserts (b : SimpleFile) : Call → Prop
  | .data (.write data _ _) => b.WriteAsserts data
  | .data (.read len _) => b.ReadAsserts len
  | _ => True

/-- The assertions of the call hold, the reads stay behind the writes, and under a lock no byte
behind the unlocked position is delivered. -/
def Safe (b : SimpleFile) (c : Call) : Prop :=
  b.Asserts c ∧ (b.call c).bytesOut ≤ (b.call c).bytesIn ∧
    ((b.call c).ringMode = false → (b.call c).readpos ≤ (b.call c).endpos) ∧
    ∀ len io, c = .data (.read len io) → b.useLock = true → (b.read len io).2.bytes ≠ [] →
      (b.call c).readpos ≤ b.unlocked

/-- A read of a file with bytes in it finds the locks in order: a locked file has not become a
ring and has not been read behind its lock; one without a lock is not taken for a complete one. -/
def InOrder (b : SimpleFile) : Call → Prop
  | .data (.read len io) => len ≠ 0 → b.readpos ≠ b.endpos →
    (b.useLock = true → b.ringMode = false ∧ b.readpos ≤ b.unlocked) ∧
      (b.useLock = false → ¬ b.ReadsStale (.read len io))
  | _ => True

/-- What all calls keep. -/
structure Placed (b : SimpleFile) : Prop where
  limit : b.maxStoreSize ≠ 0 → b.endpos ≤ b.maxStoreSize ∧ b.readpos ≤ b.maxStoreSize
  straight : b.ringMode = false → b.readpos ≤ b.endpos ∧ b.store.length = b.endpos ∧
    b.bytesIn = b.endpos ∧ b.bytesOut = b.readpos
  ring : b.ringMode = true → b.maxStoreSize ≠ 0 ∧ b.store.length = b.maxStoreSize ∧
    (b.readpos ≤ b.endpos → b.bytesIn + b.readpos = b.bytesOut + b.endpos) ∧
    (b.endpos < b.readpos → b.bytesIn + b.readpos = b.bytesOut + b.maxStoreSize + b.endpos)
  lock : 0 ≤ b.unlocked

namespace Placed

variable {b : SimpleFile}

theorem filled (h : b.Placed) : b.endpos ≤ b.store.length := by
  cases hr : b.ringMode with
  | false => exact (h.straight hr).2.1.ge
  | true =>
    obtain ⟨hmax, hlen, -⟩ := h.ring hr
    have := h.limit hmax
    omega

theorem inv (h : b.Placed) (hmax : b.maxStoreSize ≠ 0) (hlock : b.useLock = false) : b.Inv := by
  obtain ⟨hend, hread⟩ := h.limit hmax
  refine ⟨by omega, hlock, hend, hread, ?_, h.filled, fun hlt => ?_, fun hr => (h.ring hr).2.1⟩
  · cases hr : b.ringMode with
    | false => rw [(h.straight hr).2.1]; exact hend
    | true => exact (h.ring hr).2.1.le
  · by_contra hr
    have := (h.straight (Bool.eq_false_iff.mpr hr)).1
    omega

theorem turned (h : b.Placed) {b' : SimpleFile} (ht : Turned b b') : b'.Placed := by
  rcases ht with rfl | ⟨hend, hmax, hread, rfl⟩
  · exact h
  have hle := h.limit hmax
  refine ⟨fun _ => ⟨Nat.zero_le _, hle.2⟩, nofun, fun _ => ⟨hmax, ?_, ?_, ?_⟩, h.lock⟩
  · cases hr : b.ringMode with
    | false => exact (h.straight hr).2.1.trans hend
    | true => exact (h.ring hr).2.1
  · intro hle
    exact absurd (Nat.le_zero.mp hle) hread
  · intro _
    show b.bytesIn + b.readpos = b.bytesOut + b.maxStoreSize + 0
    cases hr : b.ringMode with
    | false =>
      have := h.straight hr
      omega
    | true =>
      have := (h.ring hr).2.2.1 (by omega)
      omega

theorem append (h : b.Placed) {data : List UInt8} (hfits : b.Fits data.length) (e : Bool) :
    (b.append data e).Placed := by
  have hfilled := h.filled
  have hlen : (b.append data e).store.length = max b.store.length (b.endpos + data.length) := by
    show (pwrite b.store b.endpos data).length = _
    rw [pwrite_eq hfilled, length_put_le hfilled]
  unfold Fits at hfits
  refine ⟨fun hmax => ?_, fun hr => ?_, fun hr => ?_, h.lock⟩
  · have hmax : b.maxStoreSize ≠ 0 := hmax
    have := h.limit hmax
    dsimp only [SimpleFile.append]
    omega
  · have := h.straight hr
    rw [hlen]
    dsimp only [SimpleFile.append]
    omega
  · have hring := h.ring hr
    have := h.limit hring.1
    rw [hlen]
    dsimp only [SimpleFile.append]
    omega

theorem write (h : b.Placed) (data : List UInt8) (iseof : Bool) (io : Option Nat) :
    (b.write data iseof io).1.Placed := by
  obtain ⟨b', e, n, hb', -, hn, hfits, hwrite⟩ :=
    write_append h.filled (fun hmax => (h.limit hmax).1) data iseof io
  rw [hwrite]
  refine (h.turned hb').append ?_ e
  rwa [length_take, min_eq_left hn]

theorem wrapRead (h : b.Placed) (hne : b.readpos ≠ b.endpos) : b.wrapRead.Placed := by
  unfold SimpleFile.wrapRead
  split_ifs with hend
  · have hle := h.limit hend.1
    refine ⟨fun _ => ⟨hle.1, Nat.zero_le _⟩, fun hr => ?_, fun hr => ?_, h.lock⟩
    · have := (h.straight hr).1
      omega
    · have := h.ring hr
      dsimp only
      omega
  · exact h

/-- Bytes are taken from in front of the end position, or of the end of a ring. -/
theorem taken (h : b.Placed) {out : List UInt8} (hout : b.readpos + out.length ≤ b.endpos ∨
      b.endpos < b.readpos ∧ b.readpos + out.length ≤ b.maxStoreSize) : (b.taken out).Placed := by
  refine ⟨fun hmax => ?_, fun hr => ?_, fun hr => ?_, h.lock⟩
  · have := h.limit hmax
    dsimp only [SimpleFile.taken]
    omega
  · have := h.straight hr
    dsimp only [SimpleFile.taken]
    omega
  · have := h.ring hr
    dsimp only [SimpleFile.taken]
    omega

theorem wrapRead_eq (h : b.Placed) (hr : b.ringMode = false) (hne : b.readpos ≠ b.endpos) :
    b.wrapRead = b := by
  refine if_neg fun hend => ?_
  have := h.limit hend.1
  have := h.straight hr
  omega

theorem positions (h : b.Placed) :
    b.bytesOut ≤ b.bytesIn ∧ (b.ringMode = false → b.readpos ≤ b.endpos) := by
  refine ⟨?_, fun hr => (h.straight hr).1⟩
  cases hr : b.ringMode with
  | false =>
    have := h.straight hr
    omega
  | true =>
    have hring := h.ring hr
    have := h.limit hring.1
    omega

theorem unlocked_of_ring {len : Nat} {io : Option Nat} (hok : b.InOrder (.data (.read len io)))
    (hlen : len ≠ 0) (hne : b.readpos ≠ b.endpos) (hr : b.ringMode = true) : b.useLock = false := by
  by_contra hlock
  have := ((hok hlen hne).1 (Bool.eq_true_of_not_eq_false hlock)).1
  rw [hr] at this
  cases this

/-- A read that finds the locks in order. -/
theorem read (h : b.Placed) {len : Nat} {io : Option Nat} (hok : b.InOrder (.data (.read len io))) :
    (b.read len io).1.Placed ∧ (b.useLock = true → (b.read len io).2.bytes ≠ [] →
      (b.read len io).1.readpos ≤ b.unlocked) := by
  by_cases hnone : len = 0 ∨ b.readpos = b.endpos
  · obtain ⟨hread, hbytes⟩ := read_nothing hnone io
    rw [hread, hbytes]
    exact ⟨h, fun _ hne => absurd rfl hne⟩
  obtain ⟨hlen, hne⟩ := not_or.mp hnone
  obtain ⟨n, hread, hbytes, hn⟩ := read_taken hlen hne io
  rw [hread, hbytes]
  have hout : ((b.wrapRead.store.drop b.wrapRead.readpos).take n).length =
      min n (b.wrapRead.store.length - b.wrapRead.readpos) := by
    rw [length_take, length_drop]
  cases hr : b.ringMode with
  | false =>
    have hstraight := h.straight hr
    rw [h.wrapRead_eq hr hne] at hn hout ⊢
    refine ⟨h.taken (.inl (by omega)), fun hlock hbytes => ?_⟩
    have hle := ((hok hlen hne).1 hlock).2
    rcases hn with rfl | ⟨k, m, -, -, hm, hn⟩
    · exact absurd rfl hbytes
    · rw [available, if_pos ⟨hlock, h.lock⟩, Option.some.injEq] at hm
      dsimp only [SimpleFile.taken]
      omega
  | true =>
    have hlock := unlocked_of_ring hok hlen hne hr
    have hinv := (wrapRead_content (h.inv (h.ring hr).1 hlock) hne).1
    refine ⟨(h.wrapRead hne).taken ?_, fun hlock' => by rw [hlock] at hlock'; cases hlock'⟩
    have hle := hinv.read_le
    rcases hn with rfl | ⟨k, m, rfl, hk, hm, hn⟩
    · omega
    · have := available_le hinv.noLock (wrapRead_ne hne fun hr he =>
        (hok hlen hne).2 hlock ⟨hlen, hk, hr, he⟩) hle hm
      omega

theorem call (h : b.Placed) {c : Call} (hok : b.InOrder c) : (b.call c).Placed := by
  cases c with
  | data o =>
    cases o with
    | write data iseof io => exact h.write data iseof io
    | read len io => exact (h.read hok).1
  | lockAll => exact ⟨h.limit, h.straight, h.ring, le_rfl⟩
  | unlock len =>
    refine ⟨h.limit, h.straight, h.ring, ?_⟩
    dsimp only [SimpleFile.call, unlock]
    split <;> omega
  | unlockAll => exact ⟨h.limit, h.straight, h.ring, le_rfl⟩

theorem asserts (h : b.Placed) {c : Call} (hok : b.InOrder c) : b.Asserts c := by
  cases c with
  | data o =>
    cases o with
    | write data iseof io =>
      refine fun _ _ => ⟨h.limit, fun hlt => ?_⟩
      by_contra hr
      have := (h.straight (Bool.eq_false_iff.mpr hr)).1
      omega
    | read len io =>
      intro hlen hne
      cases hr : b.ringMode with
      | false =>
        have := h.straight hr
        rw [h.wrapRead_eq hr hne]
        refine ⟨fun hmax _ => ?_, fun hlock => ⟨rfl, ((hok hlen hne).1 hlock.1).2⟩, fun _ _ => ?_⟩
        · have := h.limit hmax
          omega
        · omega
      | true =>
        have := read_asserts (h.inv (h.ring hr).1 (unlocked_of_ring hok hlen hne hr)) len hlen hne
        rwa [hr] at this
  | _ => trivial

theorem safe_iff (h : b.Placed) (c : Call) : b.Safe c ↔ b.InOrder c := by
  constructor
  · rintro ⟨hasserts, hpos, -⟩
    cases c with
    | data o =>
      cases o with
      | write => trivial
      | read len io =>
        intro hlen hne
        obtain ⟨-, hlocked, -⟩ := hasserts hlen hne
        refine ⟨fun hlock => ?_, fun hlock hstale => ?_⟩
        · obtain ⟨hr, hle⟩ := hlocked ⟨hlock, h.lock⟩
          rw [h.wrapRead_eq hr hne] at hle
          exact ⟨hr, hle⟩
        · -- a file that is taken for a complete one has no bytes left to deliver
          obtain ⟨k, rfl⟩ : ∃ k, io = some k := by
            cases io with
            | none => cases hstale
            | some k => exact ⟨k, rfl⟩
          obtain ⟨-, -, hread, hend⟩ := id hstale
          have hmax : b.maxStoreSize ≠ 0 := by omega
          have hret := (read_stale (h.inv hmax hlock) hstale).2
          obtain ⟨n, htaken, hbytes, -⟩ := read_taken hlen hne (some k)
          have hwrap : b.wrapRead = { b with readpos := 0 } := if_pos ⟨hmax, hread⟩
          have hw := h.wrapRead hne
          have hcount : b.bytesIn = b.bytesOut := by
            rw [hwrap] at hw
            cases hr : b.ringMode with
            | false => have := hw.straight hr; dsimp only at this; omega
            | true => have := (hw.ring hr).2.2.1 (Nat.zero_le _); dsimp only at this; omega
          refine hret (List.eq_nil_of_length_eq_zero ?_)
          change (b.read len (some k)).1.bytesOut ≤ (b.read len (some k)).1.bytesIn at hpos
          change (b.read len (some k)).2.bytes.length = 0
          rw [htaken, hwrap] at hpos
          rw [hbytes, hwrap]
          dsimp only [SimpleFile.taken] at hpos ⊢
          omega
    | _ => trivial
  · intro hok
    have hcall := h.call hok
    refine ⟨h.asserts hok, hcall.positions.1, hcall.positions.2, ?_⟩
    rintro len io rfl
    exact (h.read hok).2

end Placed

end CIcap.SimpleFile
