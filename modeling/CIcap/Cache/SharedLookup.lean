import CIcap.Cache.Shared

/-! # When an update of the shared cache can be found

An update that takes another slot than the one its hash names marks it with the number of the
slot, not with the hash, and a search does not look behind a slot with another mark: the entry is
never found (`search_ne_key`). In its own slot it is found until it expires (`search_own`). An
update takes any slot whose entry does not live as long as the new one, not only those that are
near to expire.
-/

namespace CIcap

open List

namespace SharedCache

variable {entrySize : Nat} {c c' : SharedCache entrySize} {ttl now : Int} {key : List UInt8}
  {val : CacheValue}

/-! ## The slot that is taken -/

theorem victimFrom_spec {hash : Nat} {fuel start pos : Nat}
    (h : c.victimFrom ttl now key hash fuel start = some pos) :
    start ≤ pos ∧ pos < c.slots.length ∧
      ∀ p, start ≤ p → p < pos → ∀ slot, c.slots[p]? = some slot → slot.same key = false := by
  induction fuel generalizing start with
  | zero => exact absurd h (by simp [victimFrom])
  | succ fuel ih =>
    rw [victimFrom] at h
    split at h
    · exact absurd h (by simp)
    cases hslot : c.slots[start]? with
    | none =>
      rw [hslot] at h
      exact absurd h (by simp)
    | some slot =>
      rw [hslot, Option.bind_eq_bind, Option.bind_some] at h
      have hlt := (List.getElem?_eq_some_iff.mp hslot).1
      -- the loop stops here or goes on behind a slot of another key
      have hstop : some start = some pos → start ≤ pos ∧ pos < c.slots.length ∧
          ∀ p, start ≤ p → p < pos → ∀ slot, c.slots[p]? = some slot → slot.same key = false := by
        intro heq
        obtain rfl := Option.some.inj heq
        exact ⟨le_rfl, hlt, fun p hp hp' => by omega⟩
      by_cases hhash : slot.hash < hash
      · rw [if_pos hhash] at h
        exact hstop h
      rw [if_neg hhash] at h
      by_cases hsame : slot.same key = true
      · rw [if_pos hsame] at h
        exact hstop h
      split_ifs at h
      · exact hstop h
      · exact hstop h
      · obtain ⟨hle, hlt', hbefore⟩ := ih h
        refine ⟨by omega, hlt', fun p hp hp' slot' hslot' => ?_⟩
        by_cases hps : p = start
        · rw [hps, hslot, Option.some.injEq] at hslot'
          rw [← hslot']
          exact Bool.eq_false_iff.mpr hsame
        · exact hbefore p (by omega) hp' slot' hslot'

/-! ## Search -/

/-- A search does not come behind a slot with another mark. -/
theorem searchFrom_ne_key {later : Int} {dup : Dup} {hash : Nat} {fuel start pos : Nat}
    (hstart : start ≤ pos)
    (hbefore : ∀ p, start ≤ p → p < pos → ∀ slot, c.slots[p]? = some slot → slot.same key = false)
    {slot : SharedSlot (entrySize - slotHeader)} (hslot : c.slots[pos]? = some slot)
    (hmark : slot.hash ≠ hash) (v : Option (List UInt8)) :
    c.searchFrom later key dup hash fuel start ≠ some (.key v) := by
  induction fuel generalizing start with
  | zero => simp [searchFrom]
  | succ fuel ih =>
    rw [searchFrom]
    split
    · simp
    cases hs : c.slots[start]? with
    | none => simp
    | some slot' =>
      rw [Option.bind_eq_bind, Option.bind_some]
      by_cases hps : start = pos
      · rw [hps, hslot, Option.some.injEq] at hs
        rw [← hs, if_pos hmark]
        simp
      · have hsame := hbefore start le_rfl (by omega) slot' hs
        split
        · simp
        · rw [if_neg (by rw [hsame]; simp)]
          exact ih (by omega) fun p hp hp' => hbefore p (by omega) hp'

/-- An entry in its own slot is found until it expires. -/
theorem search_own {later : Int} {dup : Dup} {slot : SharedSlot (entrySize - slotHeader)}
    (hslot : c.slots[keyHash c.maxHash key]? = some slot) (hmark : slot.hash = keyHash c.maxHash key)
    (hsame : slot.same key = true) (hlater : later ≤ slot.expires) :
    c.search later key dup =
      if slot.valueSize = 0 then some (.key none)
      else (c.value (keyHash c.maxHash key) slot).map fun v => .key (dup.give v) := by
  have hlen : ∃ n, c.slots.length = n + 1 := ⟨c.slots.length - 1, by have := c.hash_lt; omega⟩
  obtain ⟨n, hn⟩ := hlen
  unfold search
  rw [hn, searchFrom, if_neg (by simp), hslot, Option.bind_eq_bind, Option.bind_some,
    if_neg (by simp [hmark]), if_pos ⟨hsame, hlater⟩]
  split_ifs
  · rfl
  · cases c.value (keyHash c.maxHash key) slot <;> rfl

end SharedCache

/-! ## What a filled slot holds -/

section Fill

variable {room : Nat} {bytes key : List UInt8} {val : CacheValue}

theorem prefix_slotBytes : (key ++ [0]) <+: slotBytes bytes key val := by
  have hkey : (key ++ [0]).length = strOps.size key := by simp [strOps]
  unfold slotBytes
  rw [Segments.write, append_assoc]
  refine List.IsPrefix.trans ?_ (prefix_append _ _)
  exact (prefix_take_iff).mpr ⟨prefix_append _ _, by omega⟩

theorem wholeValue_eq_some {b : List UInt8} (h : wholeValue (some val) = some b) :
    val.data = b ∧ b.length = val.size ∧ val.size ≠ 0 := by
  refine ⟨by rw [CacheValue.data, h]; rfl, ?_⟩
  rw [wholeValue] at h
  split_ifs at h with hsize
  exact ⟨length_copy h, hsize⟩

theorem drop_slotBytes (bytes key : List UInt8) {b : List UInt8} (h : wholeValue (some val) = some b)
    (hfits : strOps.size key + val.size ≤ bytes.length) :
    ((slotBytes bytes key val).drop (strOps.size key + 1)).take val.size =
      b.take (bytes.length - (strOps.size key + 1)) := by
  obtain ⟨hdata, hlen, hsize⟩ := wholeValue_eq_some h
  have hfirst : (Segments.write bytes 0 (key ++ [0])).length = bytes.length :=
    Segments.length_write (by simp [strOps] at hfits ⊢; omega)
  unfold slotBytes
  rw [hdata, Segments.write, append_assoc, drop_left' (by rw [length_take]; omega)]
  by_cases hbehind : b.length ≤ bytes.length - (strOps.size key + 1)
  · rw [take_of_length_le hbehind, take_left' hlen]
  · -- the slot is full
    rw [drop_eq_nil_of_le (by rw [length_take]; omega), append_nil,
      take_take, min_eq_right (by omega)]

theorem byteBehind_eq {b : List UInt8} (h : wholeValue (some val) = some b) :
    byteBehind room key val = b[room - (strOps.size key + 1)]? := by
  rw [byteBehind, (wholeValue_eq_some h).1]

end Fill

/-! ## The update -/

namespace SharedCache

section Update

variable {entrySize : Nat} {c c' : SharedCache entrySize} {ttl now expires : Int} {key : List UInt8}
  {val : CacheValue} {pos : Nat} {slot : SharedSlot (entrySize - slotHeader)}
  {h : strOps.size key + val.size ≤ entrySize - slotHeader}

theorem same_fill : (slot.fill pos expires key val h).same key = true :=
  isPrefixOf_iff_prefix.mpr prefix_slotBytes

/-- A filled slot, and the one behind it if the value ends there. -/
theorem store_cases (expires : Int) (hslot : c.slots[pos]? = some slot) :
    (byteBehind (entrySize - slotHeader) key val = none ∧
      c.store pos expires key val h = some (c.set pos (slot.fill pos expires key val h))) ∨
    ∃ b, byteBehind (entrySize - slotHeader) key val = some b ∧
      ((c.slots[pos + 1]? = none ∧ c.store pos expires key val h = none) ∨
        ∃ next, c.slots[pos + 1]? = some next ∧ c.store pos expires key val h =
          some ((c.set pos (slot.fill pos expires key val h)).set (pos + 1) (next.smash b))) := by
  unfold store
  rw [hslot]
  cases hb : byteBehind (entrySize - slotHeader) key val with
  | none => exact .inl ⟨rfl, rfl⟩
  | some b =>
    refine .inr ⟨b, rfl, ?_⟩
    cases hnext : c.slots[pos + 1]? with
    | none => exact .inl ⟨rfl, rfl⟩
    | some next => exact .inr ⟨next, rfl, rfl⟩

/-- The slots of a cache after an update. -/
structure Stored (c c' : SharedCache entrySize) (pos : Nat)
    (slot : SharedSlot (entrySize - slotHeader)) (expires : Int) (key : List UInt8)
    (val : CacheValue) (h : strOps.size key + val.size ≤ entrySize - slotHeader) : Prop where
  maxHash : c'.maxHash = c.maxHash
  own : c'.slots[pos]? = some (slot.fill pos expires key val h)
  behind : ∀ b, byteBehind (entrySize - slotHeader) key val = some b →
    ∃ next, c.slots[pos + 1]? = some next ∧ c'.slots[pos + 1]? = some (next.smash b)
  beyond : byteBehind (entrySize - slotHeader) key val = none →
    c'.slots[pos + 1]? = c.slots[pos + 1]?
  other : ∀ p, p ≠ pos → p ≠ pos + 1 → c'.slots[p]? = c.slots[p]?

theorem stored_of_store (hslot : c.slots[pos]? = some slot)
    (hstore : c.store pos expires key val h = some c') : Stored c c' pos slot expires key val h := by
  have hlt : pos < c.slots.length := (List.getElem?_eq_some_iff.mp hslot).1
  rcases store_cases (h := h) expires hslot with
    ⟨hb, heq⟩ | ⟨b, hb, ⟨-, heq⟩ | ⟨next, hnext, heq⟩⟩
  · rw [heq, Option.some.injEq] at hstore
    obtain rfl := hstore
    exact
      { maxHash := rfl
        own := getElem?_set_self hlt
        behind := fun b hb' => by rw [hb] at hb'; exact absurd hb' (by simp)
        beyond := fun _ => getElem?_set_ne (by omega)
        other := fun p hp _ => getElem?_set_ne (Ne.symm hp) }
  · rw [heq] at hstore
    exact absurd hstore (by simp)
  rw [heq, Option.some.injEq] at hstore
  obtain rfl := hstore
  have hlt' : pos + 1 < c.slots.length := (List.getElem?_eq_some_iff.mp hnext).1
  exact
    { maxHash := rfl
      own := (getElem?_set_ne (by omega)).trans (getElem?_set_self hlt)
      behind := fun b' hb' => by
        rw [hb, Option.some.injEq] at hb'
        rw [← hb']
        exact ⟨next, hnext, getElem?_set_self (by
          change pos + 1 < (c.slots.set pos _).length
          rw [length_set]; exact hlt')⟩
      beyond := fun hb' => by rw [hb] at hb'; exact absurd hb' (by simp)
      other := fun p hp hp' =>
        (getElem?_set_ne (Ne.symm hp')).trans (getElem?_set_ne (Ne.symm hp)) }

/-- The value of a filled slot is the one that was stored. -/
theorem Stored.value_eq (hs : Stored c c' pos slot expires key val h) {b : List UInt8}
    (hb : wholeValue (some val) = some b) :
    c'.value pos (slot.fill pos expires key val h) = some b := by
  obtain ⟨hdata, hlen, hsize⟩ := wholeValue_eq_some hb
  have hroom := slot.length_bytes
  have hinside : ((slot.fill pos expires key val h).bytes.drop (strOps.size key + 1)).take val.size =
      b.take (entrySize - slotHeader - (strOps.size key + 1)) := by
    have hdrop := drop_slotBytes slot.bytes key hb (by rw [hroom]; exact h)
    rw [hroom] at hdrop
    exact hdrop
  have hsizes : (slot.fill pos expires key val h).keySize = strOps.size key ∧
      (slot.fill pos expires key val h).valueSize = val.size := ⟨rfl, rfl⟩
  unfold value
  rw [hsizes.1, hsizes.2, hinside]
  cases hbyte : byteBehind (entrySize - slotHeader) key val with
  | none =>
    rw [byteBehind_eq hb, getElem?_eq_none_iff] at hbyte
    rw [take_of_length_le hbyte, if_neg (by omega)]
  | some x =>
    obtain ⟨next, -, hnext⟩ := hs.behind x hbyte
    rw [byteBehind_eq hb, getElem?_eq_some_iff] at hbyte
    obtain ⟨hlt, hx⟩ := hbyte
    rw [if_pos (by rw [length_take]; omega), hnext, Option.bind_eq_bind, Option.bind_some]
    -- the last byte is read where it was written
    have hlow : UInt8.ofNat (next.smash x).hash = x := by
      rw [← UInt8.toNat_inj]
      have := x.toNat_lt
      change (next.hash / 256 * 256 + x.toNat) % 2 ^ 8 = x.toNat
      omega
    rw [hlow, ← hx, take_concat_get' b _ hlt, take_of_length_le (by omega)]

theorem update_eq_of_victim (hfits : strOps.size key + val.size + slotHeader ≤ entrySize)
    (hpos : c.victim ttl now key = some pos) :
    c.update ttl now key val = (c.store pos (now + ttl) key val h).map fun c => (c, true) := by
  unfold update
  rw [dif_pos hfits, hpos]

theorem victim_spec (hpos : c.victim ttl now key = some pos) :
    keyHash c.maxHash key ≤ pos ∧ (∃ slot, c.slots[pos]? = some slot) ∧
      ∀ p, keyHash c.maxHash key ≤ p → p < pos → ∀ slot, c.slots[p]? = some slot →
        slot.same key = false := by
  obtain ⟨hle, hlt, hbefore⟩ := victimFrom_spec hpos
  exact ⟨hle, ⟨_, getElem?_eq_getElem hlt⟩, hbefore⟩

/-- The condition under which a successful update is right: it takes the slot that its hash names,
this one is spare, `copy_to_cache` does not give up, and a value that ends in the byte behind the
slot does not change the mark of an entry there. -/
def Sound (c : SharedCache entrySize) (ttl now : Int) (key : List UInt8) (val : CacheValue) : Prop :=
  strOps.size key + val.size + slotHeader ≤ entrySize → ∀ pos slot,
    c.victim ttl now key = some pos → c.slots[pos]? = some slot →
      pos = keyHash c.maxHash key ∧ c.Spare ttl now key pos slot ∧
      (val.size ≠ 0 → val.copy val.size ≠ none) ∧
      ∀ b, byteBehind (entrySize - slotHeader) key val = some b →
        ∃ next, c.slots[pos + 1]? = some next ∧
          (c.Spare ttl now key (pos + 1) next ∨ next.hash % 256 = b.toNat)

section

variable (hs : Stored c c' pos slot expires key val h)
include hs

/-- What a search finds of an update in its own slot. -/
theorem Stored.search_own
    (hpos : pos = keyHash c.maxHash key) {later : Int} (hlater : later ≤ expires) (dup : Dup) :
    c'.search later key dup = if val.size = 0 then some (.key none)
      else (c'.value pos (slot.fill pos expires key val h)).map fun v => .key (dup.give v) := by
  have hown := hs.own
  rw [hpos, ← hs.maxHash] at hown ⊢
  exact SharedCache.search_own hown rfl same_fill hlater

theorem Stored.finds
    (hpos : pos = keyHash c.maxHash key) (hcopy : val.size ≠ 0 → val.copy val.size ≠ none)
    {later : Int} (hlater : later ≤ expires) (dup : Dup) :
    c'.search later key dup = some (.key ((wholeValue (some val)).bind fun b => dup.give b)) := by
  rw [hs.search_own hpos hlater]
  by_cases hsize : val.size = 0
  · rw [if_pos hsize, wholeValue, if_pos hsize]
    rfl
  · have hwhole : wholeValue (some val) = val.copy val.size := by rw [wholeValue, if_neg hsize]
    obtain ⟨b, hb⟩ := Option.ne_none_iff_exists'.mp (hcopy hsize)
    rw [if_neg hsize, hs.value_eq (hwhole.trans hb), hwhole, hb]
    rfl

/-- The other entries are as they were, or in a slot that is spare. -/
theorem Stored.keeps (hslot : c.slots[pos]? = some slot) (hspare : c.Spare ttl now key pos slot)
    (hbehind : ∀ b, byteBehind (entrySize - slotHeader) key val = some b →
      ∃ next, c.slots[pos + 1]? = some next ∧
        (c.Spare ttl now key (pos + 1) next ∨ next.hash % 256 = b.toNat))
    {p : Nat} {entry : SharedSlot (entrySize - slotHeader)} (hp : c.slots[p]? = some entry)
    (hentry : ¬ c.Spare ttl now key p entry) : c'.slots[p]? = some entry := by
  by_cases hown : p = pos
  · rw [hown, hslot, Option.some.injEq] at hp
    rw [hown, ← hp] at hentry
    exact absurd hspare hentry
  by_cases hnext : p = pos + 1
  · subst hnext
    cases hb : byteBehind (entrySize - slotHeader) key val with
    | none => rw [hs.beyond hb, hp]
    | some b =>
      obtain ⟨next, hget, hcase⟩ := hbehind b hb
      obtain ⟨next', hget', hset⟩ := hs.behind b hb
      obtain rfl : next = entry := Option.some.inj (hget.symm.trans hp)
      obtain rfl : next' = next := Option.some.inj (hget'.symm.trans hget)
      rcases hcase with hcase | hbyte
      · exact absurd hcase hentry
      · rw [hset, SharedSlot.smash, ← hbyte, Nat.div_add_mod']
  · rw [hs.other p hown hnext, hp]

end

theorem sound_of_right (hright : c.UpdateRight ttl now key val) : c.Sound ttl now key val := by
  intro hfits pos slot hpos hslot
  obtain ⟨hnone, hright⟩ := hright
  have hroom : strOps.size key + val.size ≤ entrySize - slotHeader := by omega
  have heq := update_eq_of_victim (h := hroom) hfits hpos
  obtain ⟨hle, -, hbefore⟩ := victim_spec hpos
  obtain ⟨c', hstore⟩ : ∃ c', c.store pos (now + ttl) key val hroom = some c' := by
    refine Option.ne_none_iff_exists'.mp fun hstore => hnone ?_
    rw [heq, hstore]
    rfl
  have hs := stored_of_store hslot hstore
  obtain ⟨hfinds, hkeeps⟩ := hright c' (by rw [heq, hstore]; rfl)
  have hown : pos = keyHash c.maxHash key := by
    by_contra hne
    have hfound := hfinds (now + ttl) (.buffer true) le_rfl
    rw [search, hs.maxHash] at hfound
    refine searchFrom_ne_key hle ?_ hs.own hne _ hfound
    intro p hp hp' slot' hslot'
    rw [hs.other p (by omega) (by omega)] at hslot'
    exact hbefore p hp hp' slot' hslot'
  refine ⟨hown, ?_, ?_, ?_⟩
  · -- otherwise the entry in the slot should still be there
    by_contra hspare
    have hsame := hkeeps pos slot hslot hspare
    rw [hs.own, Option.some.injEq] at hsame
    refine hspare (.inr (.inl ?_))
    rw [← hsame]
    exact same_fill
  · intro hsize hcopy
    have hfound := hfinds (now + ttl) (.buffer true) le_rfl
    rw [hs.search_own hown le_rfl, if_neg hsize, wholeValue, hcopy] at hfound
    cases hv : c'.value pos (slot.fill pos (now + ttl) key val hroom) with
    | none => rw [hv] at hfound; exact absurd hfound (by simp)
    | some v => rw [hv] at hfound; exact absurd hfound (by simp [Dup.give])
  · intro b hb
    obtain ⟨next, hnext, hset⟩ := hs.behind b hb
    refine ⟨next, hnext, or_iff_not_imp_left.mpr fun hspare => ?_⟩
    have hsame := hkeeps (pos + 1) next hnext hspare
    rw [hset, Option.some.injEq] at hsame
    have hhash : next.hash / 256 * 256 + b.toNat = next.hash := congrArg SharedSlot.hash hsame
    omega

theorem right_of_refused (heq : c.update ttl now key val = some (c, false)) :
    c.UpdateRight ttl now key val := by
  rw [UpdateRight, heq]
  exact ⟨by simp, fun c' h => by simp at h⟩

theorem right_of_sound (hsound : c.Sound ttl now key val) : c.UpdateRight ttl now key val := by
  by_cases hfits : strOps.size key + val.size + slotHeader ≤ entrySize
  swap
  · exact right_of_refused (dif_neg hfits)
  have hroom : strOps.size key + val.size ≤ entrySize - slotHeader := by omega
  cases hpos : c.victim ttl now key with
  | none =>
    refine right_of_refused ?_
    unfold update
    rw [dif_pos hfits, hpos]
  | some pos =>
    obtain ⟨-, ⟨slot, hslot⟩, -⟩ := victim_spec hpos
    obtain ⟨hown, hspare, hcopy, hbehind⟩ := hsound hfits pos slot hpos hslot
    obtain ⟨c', hstore⟩ : ∃ c', c.store pos (now + ttl) key val hroom = some c' := by
      rcases store_cases (h := hroom) (now + ttl) hslot with
        ⟨-, hstore⟩ | ⟨b, hb, ⟨hnone, -⟩ | ⟨next, -, hstore⟩⟩
      · exact ⟨_, hstore⟩
      · obtain ⟨next, hnext, -⟩ := hbehind b hb
        rw [hnone] at hnext
        exact absurd hnext (by simp)
      · exact ⟨_, hstore⟩
    have hs := stored_of_store hslot hstore
    rw [UpdateRight, update_eq_of_victim (h := hroom) hfits hpos, hstore]
    refine ⟨by simp, fun c'' hc'' => ?_⟩
    obtain rfl : c' = c'' := by simpa using hc''
    exact ⟨fun later dup hlater => hs.finds hown hcopy hlater dup,
      fun p entry hp hentry => hs.keeps hslot hspare hbehind hp hentry⟩

end Update

end SharedCache

/-- An update of a shared cache is right exactly when it is `Sound`: for every content of the
cache, key, value and time. -/
theorem shared_update_right_iff {entrySize : Nat} (c : SharedCache entrySize) (ttl now : Int)
    (key : List UInt8) (val : CacheValue) :
    c.UpdateRight ttl now key val ↔ c.Sound ttl now key val :=
  ⟨SharedCache.sound_of_right, SharedCache.right_of_sound⟩

/-- In the same second two keys with one hash are stored, the second one in the next slot: it is
not found. -/
theorem shared_update_lost : ∃ c c' : SharedCache (slotSize 64),
      (SharedCache.init 4096 64).update 3600 1000 (CText.bytes "!") (.bytes (CText.bytes "x")) =
        some (c, true) ∧
      c.update 3600 1000 (CText.bytes "a") (.bytes (CText.bytes "y")) = some (c', true) ∧
      c'.search 1000 (CText.bytes "a") (.buffer true) = some .null ∧
      ¬ c.UpdateRight 3600 1000 (CText.bytes "a") (.bytes (CText.bytes "y")) := by
  have hrun : (((SharedCache.init 4096 64).update 3600 1000 (CText.bytes "!")
      (.bytes (CText.bytes "x"))).filter (·.2)).bind (fun r =>
        ((r.1.update 3600 1000 (CText.bytes "a") (.bytes (CText.bytes "y"))).filter (·.2)).bind
          fun r => r.1.search 1000 (CText.bytes "a") (.buffer true)) = some .null := by
    decide +kernel
  obtain ⟨⟨c, ok⟩, hc, hrest⟩ := Option.bind_eq_some_iff.mp hrun
  obtain ⟨⟨c', ok'⟩, hc', hsearch⟩ := Option.bind_eq_some_iff.mp hrest
  obtain ⟨hc, rfl⟩ := Option.filter_eq_some_iff.mp hc
  obtain ⟨hc', rfl⟩ := Option.filter_eq_some_iff.mp hc'
  refine ⟨c, c', hc, hc', hsearch, fun hright => ?_⟩
  have hfound := (hright.2 c' hc').1 1000 (.buffer true) (by decide)
  rw [hsearch] at hfound
  exact absurd hfound (by simp)

end CIcap
