import CIcap.Mem.Buffers

/-! # Runs of buffer calls

What has to hold of the buffers in use is `Good`: each has room for its recorded size, would go back
to the pool or the heap it was taken from, overlaps no other one, and keeps its bytes in a
reallocation. The recorded size says where a block came from only as long as a reallocation in place
stays within the sizes of the same pool: `Keeps` is the exact condition on the calls.
-/

namespace CIcap

open List

inductive BufEvent
  | alloc (n : UInt64) (allocated : Bool) (m : Option Nat)
  | realloc (p : Option Nat) (n : UInt64) (allocated : Bool) (m : Option Nat)
  | free (p : Nat)
  /-- The owner of a buffer writes its first bytes. -/
  | fill (p : Nat) (bytes : List UInt8)

/-- The memory of a block, from its start to its end. -/
def BufBlock.extent (b : BufBlock) : Nat × Nat := (b.base, b.stop)

/-- Two pieces of memory that do not overlap. -/
def ExtentsApart (x y : Nat × Nat) : Prop := x.2 ≤ y.1 ∨ y.2 ≤ x.1

theorem ExtentsApart.symm {x y : Nat × Nat} (h : ExtentsApart x y) : ExtentsApart y x := Or.symm h

theorem BufBlock.lt_ptr (b : BufBlock) : b.base < b.ptr := by
  unfold ptr head ptrOffset
  split <;> omega

theorem BufBlock.ptr_le_stop (b : BufBlock) : b.ptr ≤ b.stop := Nat.le_add_right _ _

/-- Blocks that do not overlap have different pointers. -/
theorem ptr_ne_of_apart {a b : BufBlock} (h : ExtentsApart a.extent b.extent) : a.ptr ≠ b.ptr := by
  have ha := a.lt_ptr
  have hb := b.lt_ptr
  have ha' := a.ptr_le_stop
  have hb' := b.ptr_le_stop
  rcases h with h | h
  · have : a.stop ≤ b.base := h
    omega
  · have : b.stop ≤ a.base := h
    omega

namespace Buffers

def fill (s : Buffers) (p : Nat) (bytes : List UInt8) : Buffers :=
  { s with live := s.live.map fun b =>
      if b.ptr = p ∧ bytes.length ≤ b.id.toNat then
        { b with data := bytes ++ b.data.drop bytes.length }
      else b }

/-- One call. Behind a fault nothing is said. -/
def step (s : Buffers) (e : BufEvent) : Buffers :=
  if s.fault then s
  else
    match e with
    | .alloc n allocated m => (s.alloc n allocated m).2
    | .realloc p n allocated m => (s.realloc p n allocated m).2
    | .free p => s.free p
    | .fill p bytes => s.fill p bytes

/-- A reallocation keeps the first bytes of the buffer, as many as both sizes have. -/
def ReallocKeeps (s : Buffers) : Prop :=
  ∀ (p q : Nat) (n : UInt64) (allocated : Bool) (m : Option Nat) (b : BufBlock),
    s.find p = some b → (s.realloc (some p) n allocated m).1 = some q →
      ∃ c, (s.realloc (some p) n allocated m).2.find q = some c ∧
        c.data.take (min b.id.toNat n.toNat) = b.data.take (min b.id.toNat n.toNat)

/-- What has to hold of the buffers in use. -/
structure Good (s : Buffers) : Prop where
  alive : s.fault = false
  fits : ∀ b ∈ s.live, b.id.toNat ≤ b.capacity
  /-- `ci_buffer_free` looks at the recorded size and finds the place the block was taken from. -/
  returns : ∀ b ∈ s.live, bufferSource b.id = some b.source
  apart : s.live.Pairwise fun a b => a.stop ≤ b.ptr ∨ b.stop ≤ a.ptr
  keeps : s.ReallocKeeps

/-- The size is found in the tables, and the pool has a block or gets the memory for one. -/
def Allocates (s : Buffers) (n : UInt64) (m : Option Nat) : Prop :=
  match bufferSource n with
  | none => False
  | some (.pool i) => n.toNat ≤ poolSize i →
      s.pools.getD i [] ≠ [] ∨ s.malloc m (ptrOffset + ptrOffset + poolSize i) ≠ none
  | some .heap => True

/-- The condition on a call: new memory is found, and a reallocation in place stays within the sizes
that are looked for in the same place. -/
def Keeps (s : Buffers) : BufEvent → Prop
  | .alloc n _ m => s.Allocates n m
  | .realloc none n _ m => s.Allocates n m
  | .realloc (some p) n allocated m => ∀ b, s.find p = some b →
      if realSize b.id b.source < n.toNat then s.Allocates n m
      else allocated = true ∨ bufferSource n = bufferSource b.id
  | .free _ | .fill _ _ => True

/-! ## The blocks -/

/-- What holds of the blocks along the good runs. -/
structure Inv (s : Buffers) : Prop where
  pools : s.pools.length = bufEndPool
  apart : (s.blocks.map BufBlock.extent).Pairwise ExtentsApart
  idle : ∀ (i : Nat) (b : BufBlock), b ∈ s.pools.getD i [] →
    b.pooled = true ∧ poolSize i ≤ b.capacity ∧ b.data.length = b.capacity
  used : ∀ b ∈ s.live, b.data.length = b.capacity ∧
    ∀ i, b.source = .pool i → poolSize i ≤ b.capacity
  kind : ∀ b ∈ s.live, b.pooled = true ↔ ∃ i, b.source = .pool i

theorem inv_init : Inv init where
  pools := length_replicate
  apart := by
    exact .nil
  idle i b hb := by
    rw [getD_eq_getElem?_getD, init, getElem?_replicate] at hb
    split at hb <;> cases hb
  used b hb := nomatch hb
  kind b hb := nomatch hb

theorem apart_of_perm {l l' : List BufBlock} (h : (l.map BufBlock.extent).Pairwise ExtentsApart)
    (hp : (l'.map BufBlock.extent).Perm (l.map BufBlock.extent)) :
    (l'.map BufBlock.extent).Pairwise ExtentsApart :=
  (hp.pairwise_iff fun h => h.symm).mpr h

variable {i p : Nat} {b c : BufBlock} {s : Buffers} {m : Option Nat} {n : UInt64} {allocated : Bool}

variable {ls : List (List BufBlock)} {rest : List BufBlock}

theorem flatten_set_perm (h : ls.getD i [] = b :: rest) :
    ls.flatten.Perm (b :: (ls.set i rest).flatten) := by
  induction ls generalizing i with
  | nil => simp at h
  | cons l ls ih =>
    cases i with
    | zero =>
      have hl : l = b :: rest := h
      rw [hl]
      exact .refl _
    | succ i =>
      have hrec := ih (i := i) (by simpa using h)
      exact (hrec.append_left l).trans perm_middle

theorem flatten_modify_perm (hi : i < ls.length) (b : BufBlock) :
    (ls.modify i (b :: ·)).flatten.Perm (b :: ls.flatten) := by
  induction ls generalizing i with
  | nil => simp at hi
  | cons l ls ih =>
    cases i with
    | zero => exact .refl _
    | succ i =>
      exact ((ih (by simpa using hi)).append_left l).trans perm_middle

theorem mem_of_mem_getD_set {j : Nat}
    (hi : ls.getD i [] = b :: rest) (hc : c ∈ (ls.set i rest).getD j []) : c ∈ ls.getD j [] := by
  rw [getD_eq_getElem?_getD, getElem?_set] at hc
  split_ifs at hc with hj hlt
  · subst hj
    rw [hi]
    exact mem_cons_of_mem b hc
  · cases hc
  · rwa [getD_eq_getElem?_getD]

theorem mem_getD_modify {j : Nat} (hc : c ∈ (ls.modify i (b :: ·)).getD j []) :
    (j = i ∧ c = b) ∨ c ∈ ls.getD j [] := by
  rw [getD_eq_getElem?_getD, getElem?_modify] at hc
  rw [getD_eq_getElem?_getD]
  cases hl : ls[j]? with
  | none => simp [hl] at hc
  | some l =>
    by_cases hj : i = j
    · have hc' : c ∈ b :: l := by simpa [hl, hj] using hc
      exact (mem_cons.mp hc').imp_left fun h => ⟨hj.symm, h⟩
    · exact .inr (by simpa [hl, hj] using hc)

theorem find_perm (h : s.find p = some b) :
    b ∈ s.live ∧ b.ptr = p ∧ s.live.Perm (b :: s.live.eraseP fun c => c.ptr == p) := by
  unfold find at h
  generalize s.live = live at h
  have hp : b.ptr = p := by simpa using find?_some h
  refine ⟨mem_of_find?_eq_some h, hp, ?_⟩
  induction live with
  | nil => cases h
  | cons c cs ih =>
    by_cases hc : c.ptr = p
    · rw [find?_cons_of_pos (by simpa using hc)] at h
      cases h
      rw [eraseP_cons_of_pos (by simpa using hc)]
    · rw [find?_cons_of_neg (by simpa using hc)] at h
      rw [eraseP_cons_of_neg (by simpa using hc)]
      exact ((ih h).cons c).trans (.swap b c _)

/-! ## New memory -/

theorem malloc_eq_some {size base : Nat} (h : s.malloc m size = some base) :
    ∀ b ∈ s.blocks, base + size ≤ b.base ∨ b.stop ≤ base := by
  obtain ⟨-, hall⟩ := Option.filter_eq_some_iff.mp h
  intro b hb
  simpa using all_eq_true.mp hall b hb

/-- A block from fresh memory overlaps no other one. -/
theorem Inv.fresh (h : Inv s) {size : Nat}
    (hm : s.malloc m size = some c.base) (hsize : c.stop ≤ c.base + size)
    (hdata : c.data.length = c.capacity)
    (hpool : ∀ i, c.source = .pool i → poolSize i ≤ c.capacity)
    (hkind : c.pooled = true ↔ ∃ i, c.source = .pool i) :
    Inv { s with live := c :: s.live } where
  pools := h.pools
  apart := by
    show ((c :: s.blocks).map BufBlock.extent).Pairwise ExtentsApart
    rw [map_cons, pairwise_cons]
    refine ⟨?_, h.apart⟩
    intro x hx
    obtain ⟨b, hb, rfl⟩ := mem_map.mp hx
    rcases malloc_eq_some hm b hb with hleft | hright
    · exact .inl (hsize.trans hleft)
    · exact .inr hright
  idle := h.idle
  used b hb := by
    rcases mem_cons.mp hb with rfl | hb
    · exact ⟨hdata, hpool⟩
    · exact h.used b hb
  kind b hb := by
    rcases mem_cons.mp hb with rfl | hb
    · exact hkind
    · exact h.kind b hb

theorem Inv.fromPool (h : Inv s) (hi : s.pools.getD i [] = b :: rest) (id : UInt64) :
    Inv { s with
      live := { b with source := .pool i, id := id } :: s.live
      pools := s.pools.set i rest } where
  pools := by
    rw [length_set]
    exact h.pools
  apart := by
    apply apart_of_perm h.apart
    have hflat := (flatten_set_perm hi).append_left s.live
    exact ((hflat.trans perm_middle).map BufBlock.extent).symm
  idle j c hc := h.idle j c (mem_of_mem_getD_set hi hc)
  used c hc := by
    rcases mem_cons.mp hc with rfl | hc
    · obtain ⟨-, hsize, hdata⟩ := h.idle i b (by rw [hi]; exact mem_cons_self)
      refine ⟨hdata, ?_⟩
      intro j hj
      cases hj
      exact hsize
    · exact h.used c hc
  kind c hc := by
    rcases mem_cons.mp hc with rfl | hc
    · obtain ⟨hpooled, -, -⟩ := h.idle i b (by rw [hi]; exact mem_cons_self)
      exact ⟨fun _ => ⟨i, rfl⟩, fun _ => hpooled⟩
    · exact h.kind c hc

/-- The block that `takeBlock` gives for a size: it has the room, and a size that is looked for in
the same place finds where it was taken from. -/
structure Taken (s s' : Buffers) (n id : UInt64) (c : BufBlock) : Prop where
  live : s'.live = s.live
  fault : s'.fault = s.fault
  id : c.id = id
  room : n.toNat ≤ c.capacity
  small : n.toNat ≤ realSize n c.source
  source : bufferSource n = some c.source
  inv : Inv { s' with live := c :: s.live }

/-- Where `takeBlock` finds a block. -/
inductive Gives (s : Buffers) (n id : UInt64) : BufBlock → Buffers → Prop
  | pool {i : Nat} {b : BufBlock} {rest : List BufBlock} (hsrc : bufferSource n = some (.pool i))
      (hn : n.toNat ≤ poolSize i) (hi : s.pools.getD i [] = b :: rest) :
      Gives s n id { b with source := .pool i, id := id } { s with pools := s.pools.set i rest }
  | fresh {i base : Nat} {m : Option Nat} (hsrc : bufferSource n = some (.pool i))
      (hn : n.toNat ≤ poolSize i)
      (hm : s.malloc m (ptrOffset + ptrOffset + poolSize i) = some base) :
      Gives s n id ⟨base, true, poolSize i, .pool i, id, replicate (poolSize i) 0⟩ s
  | heap {base : Nat} {m : Option Nat} (hsrc : bufferSource n = some .heap)
      (hm : s.malloc m (n.toNat + ptrOffset) = some base) :
      Gives s n id ⟨base, false, n.toNat, .heap, id, replicate n.toNat 0⟩ s

theorem takeBlock_cases (s : Buffers) (n id : UInt64) (m : Option Nat) :
    (¬ s.Allocates n m ∧ s.takeBlock n id m = (none, { s with fault := true })) ∨
      (s.Allocates n m ∧ (s.takeBlock n id m = (none, s) ∨
        ∃ c s', s.takeBlock n id m = (some c, s') ∧ s.Gives n id c s')) := by
  unfold Allocates takeBlock
  cases hsrc : bufferSource n with
  | none => exact .inl ⟨fun ha => ha, rfl⟩
  | some src =>
    have hwrap := toNat_add_ptrOffset (n := n) (by rw [hsrc]; exact fun hc => nomatch hc)
    rw [hwrap]
    cases src with
    | heap =>
      refine .inr ⟨trivial, ?_⟩
      cases hm : s.malloc m (n.toNat + ptrOffset) with
      | none => exact .inl rfl
      | some base => exact .inr ⟨_, _, rfl, .heap hsrc hm⟩
    | pool i =>
      dsimp only
      by_cases hfits : poolSize i + ptrOffset < n.toNat + ptrOffset
      · rw [if_pos hfits]
        exact .inr ⟨fun hn => absurd hn (by omega), .inl rfl⟩
      rw [if_neg hfits]
      have hn : n.toNat ≤ poolSize i := by omega
      cases hi : s.pools.getD i [] with
      | cons b rest => exact .inr ⟨fun _ => .inl nofun, .inr ⟨_, _, rfl, .pool hsrc hn hi⟩⟩
      | nil =>
        cases hm : s.malloc m (ptrOffset + ptrOffset + poolSize i) with
        | none => exact .inl ⟨fun ha => (ha hn).elim (absurd rfl) (absurd rfl), rfl⟩
        | some base => exact .inr ⟨fun _ => .inr nofun, .inr ⟨_, _, rfl, .fresh hsrc hn hm⟩⟩

theorem Inv.taken (h : Inv s) {s' : Buffers} {id : UInt64} (hg : s.Gives n id c s') :
    Taken s s' n id c := by
  cases hg with
  | @pool i b rest hsrc hn hi =>
    obtain ⟨-, hsize, -⟩ := h.idle i b (by rw [hi]; exact mem_cons_self)
    exact ⟨rfl, rfl, rfl, hn.trans hsize, hn, hsrc, h.fromPool hi id⟩
  | @fresh i base m hsrc hn hm =>
    refine ⟨rfl, rfl, rfl, hn, hn, hsrc, h.fresh hm ?_ length_replicate ?_ ?_⟩
    · exact (Nat.add_assoc base _ _).le
    · rintro j ⟨⟩
      exact le_rfl
    · exact ⟨fun _ => ⟨i, rfl⟩, fun _ => rfl⟩
  | @heap base m hsrc hm =>
    refine ⟨rfl, rfl, rfl, le_rfl, le_rfl, hsrc, h.fresh hm ?_ length_replicate nofun ?_⟩
    · show base + ptrOffset + n.toNat ≤ base + (n.toNat + ptrOffset)
      omega
    · exact ⟨fun hc => (nomatch hc), fun ⟨_, hi⟩ => (nomatch hi)⟩

theorem takeBlock_spec (h : Inv s) (n id : UInt64) (m : Option Nat) (ha : s.Allocates n m) :
    s.takeBlock n id m = (none, s) ∨ ∃ c s', s.takeBlock n id m = (some c, s') ∧
      Taken s s' n id c := by
  rcases takeBlock_cases s n id m with ⟨hno, -⟩ | ⟨-, hnone | ⟨c, s', hsome, hg⟩⟩
  · exact absurd ha hno
  · exact .inl hnone
  · exact .inr ⟨c, s', hsome, h.taken hg⟩

theorem takeBlock_fault (n id : UInt64) (m : Option Nat) (ha : ¬ s.Allocates n m) :
    s.takeBlock n id m = (none, { s with fault := true }) :=
  (takeBlock_cases s n id m).elim And.right fun h => absurd h.1 ha

/-- The size of a whole block is looked for in the same place. -/
theorem whole_spec {src : BufSource} {capacity : Nat}
    (hsrc : bufferSource n = some src) (hn : n.toNat ≤ capacity)
    (hpool : ∀ i, src = .pool i → poolSize i ≤ capacity) :
    (UInt64.ofNat (realSize n src)).toNat ≤ capacity ∧
      bufferSource (UInt64.ofNat (realSize n src)) = some src ∧
      (UInt64.ofNat (realSize n src)).toNat ≤ realSize (UInt64.ofNat (realSize n src)) src := by
  cases src with
  | heap =>
    have hsame : UInt64.ofNat (realSize n .heap) = n := UInt64.ofNat_toNat
    rw [hsame]
    exact ⟨hn, hsrc, Nat.le_refl _⟩
  | pool i =>
    have hle : (UInt64.ofNat (poolSize i)).toNat ≤ poolSize i := by
      exact Nat.mod_le _ _
    exact ⟨hle.trans (hpool i rfl), bufferSource_poolSize (bufferSource_pool hsrc), hle⟩

theorem Taken.recorded {s' : Buffers} (h : Taken s s' n (newId n allocated) c) :
    c.id.toNat ≤ c.capacity ∧ bufferSource c.id = some c.source ∧
      c.id.toNat ≤ realSize c.id c.source := by
  have hid := h.id
  unfold newId at hid
  rw [h.source] at hid
  cases allocated with
  | false =>
    rw [hid]
    exact ⟨h.room, h.source, h.small⟩
  | true =>
    rw [hid]
    exact whole_spec h.source h.room (h.inv.used c mem_cons_self).2

/-! ## Free and realloc -/

/-- A buffer whose recorded size leads to its source goes back there. -/
theorem free_spec (h : Inv s) (hp : s.find p = some b) (hsrc : bufferSource b.id = some b.source) :
    (s.free p).live = s.live.eraseP (fun c => c.ptr == p) ∧ (s.free p).fault = s.fault ∧
      Inv (s.free p) := by
  obtain ⟨hb, -, hperm⟩ := find_perm hp
  have hrest : ∀ c ∈ s.live.eraseP (fun c => c.ptr == p), c ∈ s.live := fun c hc =>
    mem_of_mem_eraseP hc
  have hkind := h.kind b hb
  unfold free
  rw [hp]
  dsimp only
  cases hs : b.source with
  | pool i =>
    have hi : i < s.pools.length := by
      rw [h.pools]
      exact bufferSource_pool (hsrc.trans (by rw [hs]))
    rw [hsrc, hs, hkind.mpr ⟨i, hs⟩]
    refine ⟨rfl, rfl, ?_, ?_, ?_, ?_, ?_⟩
    · rw [length_modify]
      exact h.pools
    · apply apart_of_perm h.apart
      apply List.Perm.map
      -- the block moves from the live ones to the pool
      calc
        List.Perm (s.live.eraseP (fun c => c.ptr == p) ++ (s.pools.modify i (b :: ·)).flatten)
            (s.live.eraseP (fun c => c.ptr == p) ++ b :: s.pools.flatten) :=
          (flatten_modify_perm hi b).append_left _
        List.Perm _ (b :: s.live.eraseP (fun c => c.ptr == p) ++ s.pools.flatten) := perm_middle
        List.Perm _ (s.live ++ s.pools.flatten) := hperm.symm.append_right _
    · intro j c hc
      rcases mem_getD_modify hc with ⟨rfl, rfl⟩ | hc
      · exact ⟨hkind.mpr ⟨j, hs⟩, (h.used c hb).2 j hs, (h.used c hb).1⟩
      · exact h.idle j c hc
    · exact fun c hc => h.used c (hrest c hc)
    · exact fun c hc => h.kind c (hrest c hc)
  | heap =>
    have hpooled : b.pooled = false := by
      rw [← Bool.not_eq_true, hkind, hs]
      rintro ⟨i, hi⟩
      cases hi
    rw [hsrc, hs, hpooled]
    refine ⟨rfl, rfl, h.pools, ?_, h.idle, fun c hc => h.used c (hrest c hc),
      fun c hc => h.kind c (hrest c hc)⟩
    apply List.Pairwise.sublist _ h.apart
    exact (eraseP_sublist.append_right _).map _

/-- What carries the good runs: the blocks are in order, and each recorded size leads to the source
of its block and is not more than the blocks of that source hold. -/
structure Sound (s : Buffers) : Prop extends Inv s where
  alive : s.fault = false
  fits : ∀ b ∈ s.live, b.id.toNat ≤ b.capacity
  returns : ∀ b ∈ s.live, bufferSource b.id = some b.source
  sized : ∀ b ∈ s.live, b.id.toNat ≤ realSize b.id b.source

/-- The calls that change the live buffers to `live`. -/
theorem Sound.of_inv (h : Inv s) (halive : s.fault = false)
    (hall : ∀ b ∈ s.live, b.id.toNat ≤ b.capacity ∧ bufferSource b.id = some b.source ∧
      b.id.toNat ≤ realSize b.id b.source) : Sound s :=
  ⟨h, halive, fun b hb => (hall b hb).1, fun b hb => (hall b hb).2.1, fun b hb => (hall b hb).2.2⟩

theorem Sound.recorded (h : Sound s) (hb : b ∈ s.live) :
    b.id.toNat ≤ b.capacity ∧ bufferSource b.id = some b.source ∧
      b.id.toNat ≤ realSize b.id b.source :=
  ⟨h.fits b hb, h.returns b hb, h.sized b hb⟩

theorem alloc_sound (h : Sound s) (allocated : Bool)
    (ha : s.Allocates n m) : Sound (s.alloc n allocated m).2 := by
  unfold alloc
  rcases takeBlock_spec h.toInv n (newId n allocated) m ha with hnone | ⟨c, s', hsome, ht⟩
  · rw [hnone]
    exact h
  rw [hsome]
  have hlive : ({ s' with live := c :: s'.live } : Buffers) = { s' with live := c :: s.live } := by
    rw [ht.live]
  show Sound { s' with live := c :: s'.live }
  rw [hlive]
  refine Sound.of_inv ht.inv (ht.fault.trans h.alive) ?_
  intro b hb
  rcases mem_cons.mp hb with rfl | hb
  · exact ht.recorded
  · exact h.recorded hb

theorem inPlace_sound (h : Sound s) (hp : s.find p = some b)
    {id : UInt64} (hfits : id.toNat ≤ b.capacity) (hsrc : bufferSource id = some b.source)
    (hsized : id.toNat ≤ realSize id b.source) :
    Sound { s with live := { b with id := id } :: s.live.eraseP fun c => c.ptr == p } := by
  obtain ⟨hb, -, hperm⟩ := find_perm hp
  have hrest : ∀ c ∈ s.live.eraseP (fun c => c.ptr == p), c ∈ s.live := fun c hc =>
    mem_of_mem_eraseP hc
  refine Sound.of_inv ⟨h.pools, ?_, h.idle, ?_, ?_⟩ h.alive ?_
  · apply apart_of_perm h.apart
    exact ((hperm.symm.append_right s.pools.flatten).map BufBlock.extent)
  · intro c hc
    rcases mem_cons.mp hc with rfl | hc
    · exact h.used b hb
    · exact h.used c (hrest c hc)
  · intro c hc
    rcases mem_cons.mp hc with rfl | hc
    · exact h.kind b hb
    · exact h.kind c (hrest c hc)
  · intro c hc
    rcases mem_cons.mp hc with rfl | hc
    · exact ⟨hfits, hsrc, hsized⟩
    · exact h.recorded (hrest c hc)

/-- The new block of a reallocation with the bytes of the old one. -/
def withBytesOf (c b : BufBlock) : BufBlock :=
  { c with data := b.data.take b.id.toNat ++ c.data.drop b.id.toNat }

section

variable (h : Sound s)
include h

theorem move_spec {s' : Buffers} (hp : s.find p = some b)
    (hlarge : realSize b.id b.source < n.toNat) (ht : Taken s s' n (newId n allocated) c) :
    Sound (({ s' with live := withBytesOf c b :: s'.live } : Buffers).free p) ∧
      (({ s' with live := withBytesOf c b :: s'.live } : Buffers).free p).live =
        withBytesOf c b :: s.live.eraseP fun d => d.ptr == p := by
  obtain ⟨hb, hptr, -⟩ := find_perm hp
  obtain ⟨hdata, hpool⟩ := ht.inv.used c mem_cons_self
  have hbdata := (h.used b hb).1
  have hbfits := h.fits b hb
  have hbsized := h.sized b hb
  have hroom := ht.room
  rw [ht.live]
  have hinv : Inv { s' with live := withBytesOf c b :: s.live } := by
    refine ⟨ht.inv.pools, ht.inv.apart, ht.inv.idle, ?_, ?_⟩
    · intro d hd
      rcases mem_cons.mp hd with rfl | hd
      · refine ⟨?_, hpool⟩
        show (b.data.take b.id.toNat ++ c.data.drop b.id.toNat).length = c.capacity
        rw [length_append, length_take, length_drop]
        omega
      · exact ht.inv.used d (mem_cons_of_mem c hd)
    · intro d hd
      rcases mem_cons.mp hd with rfl | hd
      · exact ht.inv.kind c mem_cons_self
      · exact ht.inv.kind d (mem_cons_of_mem c hd)
  -- the new block is not the one that is freed
  have hne : (withBytesOf c b).ptr ≠ p := by
    rw [← hptr]
    have hapart := ht.inv.apart
    rw [blocks, cons_append, map_cons, pairwise_cons] at hapart
    have hcb : ExtentsApart c.extent b.extent :=
      hapart.1 b.extent (mem_map_of_mem (mem_append_left _ hb))
    exact ptr_ne_of_apart hcb
  have hfind : ({ s' with live := withBytesOf c b :: s.live } : Buffers).find p = some b := by
    unfold find
    rw [find?_cons_of_neg (by simpa using hne)]
    exact hp
  obtain ⟨hlive, hfault, hfree⟩ := free_spec hinv hfind (h.returns b hb)
  have herase : (withBytesOf c b :: s.live).eraseP (fun d => d.ptr == p) =
      withBytesOf c b :: s.live.eraseP (fun d => d.ptr == p) :=
    eraseP_cons_of_neg (by simpa using hne)
  rw [herase] at hlive
  refine ⟨Sound.of_inv hfree ?_ ?_, hlive⟩
  · rw [hfault]
    exact ht.fault.trans h.alive
  · rw [hlive]
    intro d hd
    rcases mem_cons.mp hd with rfl | hd
    · exact ht.recorded
    · exact h.recorded (mem_of_mem_eraseP hd)

theorem realloc_eq (hp : s.find p = some b) (n : UInt64) (allocated : Bool) (m : Option Nat) :
    s.realloc (some p) n allocated m =
      if realSize b.id b.source < n.toNat then
        match s.takeBlock n (newId n allocated) m with
        | (none, s) => (none, s)
        | (some c, s) => (some c.ptr,
            ({ s with live := withBytesOf c b :: s.live } : Buffers).free p)
      else
        let id := if allocated then UInt64.ofNat (realSize b.id b.source) else n
        (some p, { s with live := { b with id := id } :: s.live.eraseP fun c => c.ptr == p }) := by
  have hsrc := h.returns b (find_perm hp).1
  unfold realloc
  simp only [hp, hsrc]
  rfl

/-- Along the good runs a reallocation keeps the bytes that both sizes have. -/
theorem Sound.reallocKeeps : s.ReallocKeeps := by
  intro p q n allocated m b hp hq
  obtain ⟨hb, hptr, -⟩ := find_perm hp
  have hbdata := (h.used b hb).1
  have hbfits := h.fits b hb
  rw [realloc_eq h hp] at hq ⊢
  by_cases hlarge : realSize b.id b.source < n.toNat
  · rw [if_pos hlarge] at hq ⊢
    by_cases ha : s.Allocates n m
    · rcases takeBlock_spec h.toInv n (newId n allocated) m ha with hnone | ⟨c, s', hsome, ht⟩
      · rw [hnone] at hq
        cases hq
      rw [hsome] at hq ⊢
      obtain ⟨-, hlive⟩ := move_spec h hp hlarge ht
      have hqc : (withBytesOf c b).ptr = q := Option.some.inj hq
      refine ⟨withBytesOf c b, ?_, ?_⟩
      · show (Buffers.free _ p).live.find? _ = _
        rw [hlive, find?_cons_of_pos (by simpa using hqc)]
      · show (b.data.take b.id.toNat ++ c.data.drop b.id.toNat).take _ = _
        rw [take_append_of_le_length (by rw [length_take]; omega), take_take]
        congr 1
        omega
    · rw [takeBlock_fault n _ m ha] at hq
      cases hq
  · rw [if_neg hlarge] at hq ⊢
    have hqp : p = q := Option.some.inj hq
    refine ⟨{ b with id := if allocated then UInt64.ofNat (realSize b.id b.source) else n },
      ?_, rfl⟩
    show find? _ (_ :: _) = _
    rw [find?_cons_of_pos (by simpa [BufBlock.ptr, BufBlock.head, hqp] using hptr)]

/-! ## The calls of a run -/

theorem Sound.good : Good s where
  alive := h.alive
  fits := h.fits
  returns := h.returns
  apart := by
    have hlive : (s.live.map BufBlock.extent).Pairwise ExtentsApart :=
      h.apart.sublist ((sublist_append_left _ _).map _)
    refine (pairwise_map.mp hlive).imp ?_
    intro a b hab
    rcases hab with hab | hab
    · exact .inl (Nat.le_trans hab (Nat.le_of_lt b.lt_ptr))
    · exact .inr (Nat.le_trans hab (Nat.le_of_lt a.lt_ptr))
  keeps := h.reallocKeeps

end

theorem sound_init : Sound init :=
  Sound.of_inv inv_init rfl nofun

section

variable (h : Sound s)
include h

theorem fill_sound (p : Nat) (bytes : List UInt8) : Sound (s.fill p bytes) := by
  -- a write changes nothing but data, and not its length
  have hmem : ∀ c ∈ (s.fill p bytes).live, ∃ b ∈ s.live, c.extent = b.extent ∧ c.id = b.id ∧
      c.source = b.source ∧ c.capacity = b.capacity ∧ c.pooled = b.pooled ∧
      c.data.length = b.data.length := by
    intro c hc
    obtain ⟨b, hb, rfl⟩ := mem_map.mp hc
    refine ⟨b, hb, ?_⟩
    split
    · have hlen := (h.used b hb).1
      have hfits := h.fits b hb
      refine ⟨rfl, rfl, rfl, rfl, rfl, ?_⟩
      rw [length_append, length_drop]
      omega
    · exact ⟨rfl, rfl, rfl, rfl, rfl, rfl⟩
  have hextent : (s.fill p bytes).blocks.map BufBlock.extent = s.blocks.map BufBlock.extent := by
    unfold blocks fill
    rw [map_append, map_append, map_map]
    congr 1
    apply map_congr_left
    intro b _
    dsimp only [Function.comp]
    split <;> rfl
  refine Sound.of_inv ⟨h.pools, ?_, h.idle, ?_, ?_⟩ h.alive ?_
  · rw [hextent]
    exact h.apart
  · intro c hc
    obtain ⟨b, hb, -, -, hsrc, hcap, -, hlen⟩ := hmem c hc
    rw [hsrc, hcap, hlen]
    exact h.used b hb
  · intro c hc
    obtain ⟨b, hb, -, -, hsrc, -, hpooled, -⟩ := hmem c hc
    rw [hsrc, hpooled]
    exact h.kind b hb
  · intro c hc
    obtain ⟨b, hb, -, hid, hsrc, hcap, -, -⟩ := hmem c hc
    rw [hid, hsrc, hcap]
    exact h.recorded hb

/-- A size that a reallocation finds room for in place. -/
theorem Sound.inPlace (hb : b ∈ s.live) (hle : n.toNat ≤ realSize b.id b.source) :
    n.toNat ≤ b.capacity ∧ n.toNat ≤ realSize n b.source := by
  have hfits := h.fits b hb
  have hpool := (h.used b hb).2
  cases hs : b.source with
  | pool i =>
    rw [hs] at hle
    exact ⟨Nat.le_trans hle (hpool i hs), hle⟩
  | heap =>
    rw [hs] at hle
    exact ⟨Nat.le_trans hle hfits, Nat.le_refl _⟩

theorem realloc_sound (hp : s.find p = some b)
    (hk : if realSize b.id b.source < n.toNat then s.Allocates n m
      else allocated = true ∨ bufferSource n = bufferSource b.id) :
    Sound (s.realloc (some p) n allocated m).2 := by
  have hb := (find_perm hp).1
  have hsrc := h.returns b hb
  rw [realloc_eq h hp]
  by_cases hlarge : realSize b.id b.source < n.toNat
  · rw [if_pos hlarge] at hk ⊢
    rcases takeBlock_spec h.toInv n (newId n allocated) m hk with hnone | ⟨c, s', hsome, ht⟩
    · rw [hnone]
      exact h
    · rw [hsome]
      exact (move_spec h hp hlarge ht).1
  rw [if_neg hlarge] at hk ⊢
  cases allocated with
  | true =>
    obtain ⟨hfits, hsrc', hsized⟩ := whole_spec hsrc (h.fits b hb) (h.used b hb).2
    exact inPlace_sound h hp hfits hsrc' hsized
  | false =>
    have hsrc' : bufferSource n = some b.source := by
      rcases hk with hc | hk
      · cases hc
      · exact hk.trans hsrc
    obtain ⟨hfits, hsized⟩ := h.inPlace hb (Nat.le_of_not_lt hlarge)
    exact inPlace_sound h hp hfits hsrc' hsized

/-- A call that meets the condition keeps the buffers in order. -/
theorem Sound.step {e : BufEvent} (hk : s.Keeps e) : Sound (s.step e) := by
  unfold Buffers.step
  rw [if_neg (by simp [h.alive])]
  cases e with
  | alloc n allocated m => exact alloc_sound h allocated hk
  | fill p bytes => exact fill_sound h p bytes
  | free p =>
    dsimp only
    cases hp : s.find p with
    | none =>
      unfold free
      rw [hp]
      exact h
    | some b =>
      obtain ⟨hlive, hfault, hinv⟩ := free_spec h.toInv hp (h.returns b (find_perm hp).1)
      refine Sound.of_inv hinv (hfault.trans h.alive) ?_
      rw [hlive]
      exact fun c hc => h.recorded (mem_of_mem_eraseP hc)
  | realloc p n allocated m =>
    cases p with
    | none => exact alloc_sound h allocated hk
    | some p =>
      cases hp : s.find p with
      | none =>
        have hsame : s.realloc (some p) n allocated m = (none, s) := by
          unfold realloc
          simp only [hp]
        dsimp only
        rw [hsame]
        exact h
      | some b => exact realloc_sound h hp (hk b hp)

end

/-- An allocation that does not meet the condition ends in a fault. -/
theorem alloc_fault (allocated : Bool)
    (ha : ¬ s.Allocates n m) : (s.alloc n allocated m).2.fault = true := by
  unfold alloc
  rw [takeBlock_fault n _ m ha]

/-- A call that does not meet the condition leaves the buffers out of order. -/
theorem Sound.keeps_of_good (h : Sound s) {e : BufEvent} (hg : (s.step e).Good) : s.Keeps e := by
  have hlive : ¬ s.fault = true := by simp [h.alive]
  unfold Buffers.step at hg
  rw [if_neg hlive] at hg
  cases e with
  | alloc n allocated m =>
    by_contra ha
    have := hg.alive
    rw [alloc_fault allocated ha] at this
    cases this
  | free p | fill p bytes => trivial
  | realloc p n allocated m =>
    cases p with
    | none =>
      by_contra ha
      have hfault : (s.realloc none n allocated m).2.fault = true := alloc_fault allocated ha
      have := hg.alive
      rw [hfault] at this
      cases this
    | some p =>
      intro b hp
      have hsrc := h.returns b (find_perm hp).1
      dsimp only at hg
      rw [realloc_eq h hp] at hg
      by_cases hlarge : realSize b.id b.source < n.toNat
      · rw [if_pos hlarge] at hg ⊢
        by_contra ha
        rw [takeBlock_fault n _ m ha] at hg
        exact absurd hg.alive (by simp)
      rw [if_neg hlarge] at hg ⊢
      cases allocated with
      | true => exact .inl rfl
      | false =>
        -- the recorded size has to lead to the source of the block
        right
        rw [hsrc]
        exact hg.returns _ mem_cons_self

/-- **The buffers.** After every part of a run of calls each buffer in use has room for its recorded
size and would go back to where it was taken from, no two of them overlap, and reallocations keep
their bytes, exactly if new memory is found for every call and no reallocation in place changes
the place its size is looked for. -/
theorem buffers_good_iff (es : List BufEvent) :
    (∀ n, Good (Machine.run step init (es.take n))) ↔ Machine.AllSteps step Keeps init es :=
  Machine.always_iff (I := Sound) (P := Good) (fun _ _ hs _ hk => hs.step hk)
    (fun _ _ hs _ => ⟨hs.keeps_of_good, fun hk => (hs.step hk).good⟩) sound_init sound_init.good es

/-- A buffer of 100 bytes shrinks to 50 in place and is freed into the pool for 64 bytes; one of
the heap shrinks to 100 bytes and its head would be written in front of its memory; a buffer
of no bytes is looked for in front of the tables. -/
theorem buffers_misplaced :
    (let s := Machine.run step init [.alloc 100 false (some 0), .realloc (some 32) 50 false none];
      s.live.map (fun b => (b.source, bufferSource b.id)) = [(.pool 1, some (.pool 0))] ∧
        (s.free 32).pools.map length = [1, 0, 0, 0, 0, 0, 0, 0, 0, 0]) ∧
    (Machine.run step init [.alloc 32769 false (some 0), .realloc (some 16) 100 false none,
      .free 16]).fault = true ∧
    (Machine.run step init [.alloc 0 false none]).fault = true := by
  decide +kernel

/-! ## The sizes -/

/-- A size is served: it is looked for inside the tables, and a block that is given for it has room
for it behind the heads and is looked for, by its recorded size, where it was taken from. -/
def Serves (s : Buffers) (n : UInt64) : Prop :=
  (bufferSource n = some .heap ∨ ∃ i < bufEndPool, bufferSource n = some (.pool i)) ∧
    ∀ allocated m b s', s.takeBlock n (newId n allocated) m = (some b, s') →
      b.ptr + n.toNat ≤ b.stop ∧ bufferSource b.id = some b.source

/-- What every run keeps: the free blocks of a pool have the size of the pool, and a block with the
head of a pool block has the size of the pool that its recorded size leads to. -/
structure Stocked (s : Buffers) : Prop where
  idle : ∀ i, ∀ b ∈ s.pools.getD i [], poolSize i ≤ b.capacity
  live : ∀ b ∈ s.live, b.pooled = true →
    b.id = 0 ∨ ∃ i, bufferSource b.id = some (.pool i) ∧ poolSize i ≤ b.capacity

theorem bufferSource_newId (allocated : Bool) {src : BufSource} (h : bufferSource n = some src) :
    bufferSource (newId n allocated) = some src := by
  unfold newId
  rw [h]
  cases allocated with
  | false => exact h
  | true => exact (whole_spec h (Nat.le_add_right n.toNat (realSize n src))
      (fun i hi => by rw [hi]; exact Nat.le_add_left _ _)).2.1

/-- A smaller size is looked for in a pool of blocks that are not larger. -/
theorem bufferSource_le (hi : i < bufEndPool) (hn : n ≠ 0) (hle : n.toNat ≤ poolSize i) :
    ∃ j, bufferSource n = some (.pool j) ∧ poolSize j ≤ poolSize i := by
  have htable : ∀ i < bufEndPool, ∀ t < 2 ^ i,
      (if t < 16 then shortBuffers.getD t 0 else longBuffers.getD (t / 32) 0) ≤ i := by
    decide +kernel
  have hpow : 2 ^ i ≤ 2 ^ 9 := Nat.pow_le_pow_right (by decide) (by unfold bufEndPool at hi; omega)
  have hpos : n.toNat ≠ 0 := fun h => hn (UInt64.toNat_inj.mp h)
  have htype : bufferType n < 2 ^ i := by
    unfold bufferType sizeDec
    unfold poolSize at hle
    rw [if_neg hn]
    omega
  have hj := htable i hi _ htype
  unfold bufferSource
  rw [if_neg (by omega)]
  by_cases hshort : bufferType n < 16
  · rw [if_pos hshort] at hj ⊢
    exact ⟨_, rfl, Nat.mul_le_mul_left _ (Nat.pow_le_pow_right (by decide) hj)⟩
  · rw [if_neg hshort] at hj ⊢
    rw [if_pos (by omega)]
    exact ⟨_, rfl, Nat.mul_le_mul_left _ (Nat.pow_le_pow_right (by decide) hj)⟩

section

variable (h : Stocked s)
include h

/-- A live block is replaced by one with the same memory, or a new one is put in front. -/
theorem Stocked.push {live : List BufBlock} (hlive : ∀ d ∈ live, d ∈ s.live)
    (hc : c.pooled = true → c.id = 0 ∨ ∃ i, bufferSource c.id = some (.pool i) ∧ poolSize i ≤ c.capacity) :
    Stocked { s with live := c :: live } :=
  ⟨h.idle, forall_mem_cons.mpr ⟨hc, fun d hd => h.live d (hlive d hd)⟩⟩

theorem Stocked.gives {s' : Buffers} (hg : s.Gives n (newId n allocated) c s') :
    Stocked { s' with live := c :: s'.live } ∧ n.toNat ≤ c.capacity ∧
      bufferSource c.id = some c.source := by
  cases hg with
  | @pool i b rest hsrc hn hi =>
    have hb : poolSize i ≤ b.capacity := h.idle i b (by rw [hi]; exact mem_cons_self)
    have hid := bufferSource_newId allocated hsrc
    exact ⟨⟨fun j c hc => h.idle j c (mem_of_mem_getD_set hi hc),
      forall_mem_cons.mpr ⟨fun _ => .inr ⟨i, hid, hb⟩, h.live⟩⟩, hn.trans hb, hid⟩
  | fresh hsrc hn hm =>
    have hid := bufferSource_newId allocated hsrc
    exact ⟨h.push (fun _ hd => hd) fun _ => .inr ⟨_, hid, le_rfl⟩, hn, hid⟩
  | heap hsrc hm => exact ⟨h.push (fun _ hd => hd) nofun, le_rfl, bufferSource_newId allocated hsrc⟩

theorem Stocked.free (p : Nat) : Stocked (s.free p) := by
  unfold Buffers.free
  split
  · exact h
  rename_i b hp
  have hrest : ∀ c ∈ s.live.eraseP (fun c => c.ptr == p), c ∈ s.live := fun c hc =>
    mem_of_mem_eraseP hc
  split
  · rename_i i hsrc hpooled
    refine ⟨fun j c hc => ?_, fun c hc => h.live c (hrest c hc)⟩
    rcases mem_getD_modify hc with ⟨rfl, rfl⟩ | hc
    · rcases h.live c (find_perm hp).1 hpooled with hzero | ⟨k, hk, hsize⟩
      · rw [hzero] at hsrc
        cases hsrc
      · rw [hsrc] at hk
        cases hk
        exact hsize
    · exact h.idle j c hc
  · exact ⟨h.idle, fun c hc => h.live c (hrest c hc)⟩
  · exact ⟨h.idle, h.live⟩

theorem Stocked.alloc : Stocked (s.alloc n allocated m).2 := by
  unfold Buffers.alloc
  rcases takeBlock_cases s n (newId n allocated) m with ⟨-, ht⟩ | ⟨-, ht | ⟨c, s', ht, hg⟩⟩
  · rw [ht]
    exact ⟨h.idle, h.live⟩
  · rw [ht]
    exact h
  · rw [ht]
    exact (h.gives hg).1

theorem Stocked.realloc (p : Nat) : Stocked (s.realloc (some p) n allocated m).2 := by
  unfold Buffers.realloc
  dsimp only
  split
  · exact h
  rename_i b hp
  split
  · exact ⟨h.idle, h.live⟩
  rename_i src hsrc
  by_cases hlarge : realSize b.id src < n.toNat
  · rw [if_pos hlarge]
    rcases takeBlock_cases s n (newId n allocated) m with ⟨-, ht⟩ | ⟨-, ht | ⟨c, s', ht, hg⟩⟩
    · rw [ht]
      exact ⟨h.idle, h.live⟩
    · rw [ht]
      exact h
    · rw [ht]
      have hc := (h.gives hg).1
      obtain ⟨hnew, hold⟩ := forall_mem_cons.mp hc.live
      have hmoved : Stocked { s' with live := withBytesOf c b :: s'.live } :=
        ⟨hc.idle, forall_mem_cons.mpr ⟨hnew, hold⟩⟩
      exact hmoved.free p
  · rw [if_neg hlarge]
    refine h.push (fun c hc => mem_of_mem_eraseP hc) fun hpd => ?_
    rcases h.live b (find_perm hp).1 hpd with hzero | ⟨i, hi, hsize⟩
    · rw [hzero] at hsrc
      cases hsrc
    obtain rfl : src = .pool i := Option.some.inj (hsrc.symm.trans hi)
    cases allocated with
    | true => exact .inr ⟨i, bufferSource_poolSize (bufferSource_pool hi), hsize⟩
    | false =>
      by_cases hn : n = 0
      · exact .inl hn
      · obtain ⟨j, hj, hle⟩ := bufferSource_le (bufferSource_pool hi) hn (Nat.le_of_not_lt hlarge)
        exact .inr ⟨j, hj, hle.trans hsize⟩

theorem Stocked.step (e : BufEvent) : Stocked (s.step e) := by
  unfold Buffers.step
  split
  · exact h
  cases e with
  | alloc n allocated m => exact h.alloc
  | free p => exact h.free p
  | fill p bytes =>
    refine ⟨h.idle, fun c hc => ?_⟩
    obtain ⟨b, hb, rfl⟩ := mem_map.mp hc
    have hlive := h.live b hb
    split <;> exact hlive
  | realloc p n allocated m =>
    cases p with
    | none => exact h.alloc
    | some p => exact h.realloc p

end

/-- **The sizes.** Whatever calls have been made before, a size is served exactly if it is not zero
and the bit of `size - 1` that becomes the sign of the `int` is not set. -/
theorem sizes_served_iff (es : List BufEvent) (n : UInt64) :
    Serves (Machine.run step init es) n ↔ n ≠ 0 ∧ (n.toNat - 1) / 2 ^ 37 % 2 = 0 := by
  have hs : Stocked (Machine.run step init es) :=
    Machine.run_inv_all (P := Stocked) (fun _ e h => h.step e)
      ⟨fun i b hb => (inv_init.idle i b hb).2.1, nofun⟩ es
  have hsome : bufferSource n ≠ none ↔ n ≠ 0 ∧ (n.toNat - 1) / 2 ^ 37 % 2 = 0 := by
    have htype : bufferSource n ≠ none ↔ ¬ 2147483648 ≤ bufferType n := by
      unfold bufferSource
      dsimp only
      split_ifs <;> simp_all
    rw [htype, bufferType, sizeDec]
    by_cases hn : n = 0
    · simp [hn]
    · rw [if_neg hn]
      exact ⟨fun h => ⟨hn, by omega⟩, fun h => by omega⟩
  rw [← hsome]
  constructor
  · rintro ⟨hheap | ⟨i, -, hi⟩, -⟩ hnone
    · rw [hnone] at hheap
      cases hheap
    · rw [hnone] at hi
      cases hi
  · intro hne
    obtain ⟨src, hsrc⟩ := Option.ne_none_iff_exists'.mp hne
    refine ⟨?_, fun allocated m b s' ht => ?_⟩
    · cases src with
      | heap => exact .inl hsrc
      | pool i => exact .inr ⟨i, bufferSource_pool hsrc, hsrc⟩
    · rcases takeBlock_cases _ n (newId n allocated) m with ⟨-, hno⟩ | ⟨-, hno | ⟨c, s'', hsome, hg⟩⟩
      · cases hno.symm.trans ht
      · cases hno.symm.trans ht
      · cases hsome.symm.trans ht
        obtain ⟨-, hroom, hid⟩ := hs.gives hg
        exact ⟨Nat.add_le_add_left hroom _, hid⟩

/-- No bytes, and a size of `2 ^ 37 + 1` bytes. -/
theorem sizes_not_served : ¬ Serves init 0 ∧ ¬ Serves init 137438953473 := by
  refine ⟨fun h => ?_, fun h => ?_⟩
  all_goals exact absurd h.1 (by decide)

end Buffers

end CIcap
