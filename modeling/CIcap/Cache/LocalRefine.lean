import CIcap.Cache.Local

/-! # The local cache refines a queue of stored values

`Rep c free held` says what the links of a cache describe: the queue holds the entries that are
not in use, `free`, and behind them those in use, `held`, in the order in which they were stored,
and the chain of a hash holds the entries in use with this hash in the opposite order. A search
finds what was stored last under its key among `held`. An update takes the first entry out of the
queue and its chain (`evict_spec`), fills it (`store_spec`) and puts it behind the others
(`requeue_spec`).
-/

namespace CIcap

open Links List

/-! ## Stored values -/

/-- What an update has stored; an empty value is a null pointer. -/
structure Stored where
  key : List UInt8
  time : Nat
  val : Option (List UInt8)
deriving DecidableEq, Repr

/-- The entry of a stored value. -/
def Stored.item (size : Nat) (d : Stored) : CacheItem :=
  { hash := keyHash size d.key
    time := d.time
    key := some d.key
    val := d.val
    valSize := (d.val.getD []).length }

/-- What was stored last under a key. -/
def latest (key : List UInt8) (log : List Stored) : Option Stored :=
  log.reverse.find? fun d => d.key = key

/-- What a search returns for a stored value. -/
def Stored.answer (ttl : Int) (now : Nat) (dup : Dup) (d : Stored) : Option Found :=
  if ttl < now - d.time then some .null
  else
    match d.val with
    | none => some (.key none)
    | some b => dup.copy b

theorem answer_item {size : Nat} {d : Stored} (hval : d.val ≠ some []) (ttl : Int) (now : Nat)
    (dup : Dup) : (d.item size).answer ttl now dup = d.answer ttl now dup := by
  obtain ⟨key, time, val⟩ := d
  unfold CacheItem.answer Stored.answer Stored.item
  cases val with
  | none => simp
  | some b =>
    have hb : b ≠ [] := fun hb => hval (by rw [hb])
    simp [hb]

theorem keyHash_le (size : Nat) (key : List UInt8) : keyHash size key ≤ size :=
  hashCompute_le _ _ _

/-! ## Entries as cells -/

section Cells

variable {entries : List CacheEntry} {a : Nat} {e : CacheEntry}

@[simp] theorem length_hcells : (hcells entries).length = entries.length := length_map _

@[simp] theorem length_qcells : (qcells entries).length = entries.length := length_map _

theorem getElem?_hcells :
    (hcells entries)[a]? = entries[a]?.map fun e => ⟨e.toCacheItem, e.hnext⟩ := getElem?_map

theorem getElem?_qcells :
    (qcells entries)[a]? = entries[a]?.map fun e => ⟨e.toCacheItem, e.qnext⟩ := getElem?_map

theorem hcells_set :
    hcells (entries.set a e) = (hcells entries).set a ⟨e.toCacheItem, e.hnext⟩ := map_set

theorem qcells_set :
    qcells (entries.set a e) = (qcells entries).set a ⟨e.toCacheItem, e.qnext⟩ := map_set

/-- The queue does not depend on the links of the chains. -/
theorem qcells_set_self {e' : CacheEntry} (h : entries[a]? = some e)
    (hitem : e'.toCacheItem = e.toCacheItem) (hnext : e'.qnext = e.qnext) :
    qcells (entries.set a e') = qcells entries := by
  have hlt : a < entries.length := (List.getElem?_eq_some_iff.mp h).1
  rw [qcells_set, hitem, hnext]
  refine ext_getElem? fun i => ?_
  by_cases hi : i = a
  · rw [hi, getElem?_set_self (by rw [length_qcells]; exact hlt), getElem?_qcells, h]
    rfl
  · rw [getElem?_set_ne (Ne.symm hi)]

end Cells

/-! ## What the links describe -/

/-- The nodes of the entries in use. -/
def nodes (size : Nat) (held : List (Nat × Stored)) : List (Nat × CacheItem) :=
  held.map fun n => (n.1, n.2.item size)

def chainOf (size hash : Nat) (held : List (Nat × Stored)) : List (Nat × CacheItem) :=
  (nodes size (held.filter fun n => keyHash size n.2.key = hash)).reverse

structure LocalCache.Rep (c : LocalCache) (free : List (Nat × CacheItem))
    (held : List (Nat × Stored)) : Prop where
  queue : Seg (qcells c.entries) c.firstQueueEntry (free ++ nodes c.hashTableSize held) none
  last : c.lastQueueEntry = (addrs (free ++ nodes c.hashTableSize held)).getLast?
  nodup : (addrs free ++ addrs held).Nodup
  all : free.length + held.length = c.entries.length
  table : c.hashTable.length = c.hashTableSize + 1
  chain : ∀ hash ≤ c.hashTableSize,
    Seg (hcells c.entries) (c.hashTable.getD hash none) (chainOf c.hashTableSize hash held) none
  unused : ∀ n ∈ free, n.2.key = none ∧ n.2.hash = 0 ∧ n.2.time = 0
  vals : ∀ n ∈ held, n.2.val ≠ some []

section Nodes

variable {size hash a : Nat} {held : List (Nat × Stored)} {d : Stored}

@[simp] theorem addrs_nodes : addrs (nodes size held) = addrs held := by
  simp [nodes, addrs]

@[simp] theorem nodes_cons (n : Nat × Stored) :
    nodes size (n :: held) = (n.1, n.2.item size) :: nodes size held := rfl

@[simp] theorem nodes_append (ms : List (Nat × Stored)) :
    nodes size (held ++ ms) = nodes size held ++ nodes size ms := map_append

theorem mem_addrs_chainOf_iff :
    a ∈ addrs (chainOf size hash held) ↔ ∃ d, (a, d) ∈ held ∧ keyHash size d.key = hash := by
  rw [chainOf, addrs, map_reverse, mem_reverse, ← addrs, addrs_nodes]
  simp [addrs, mem_filter]

theorem mem_addrs_chainOf (ha : a ∈ addrs (chainOf size hash held)) : a ∈ addrs held := by
  obtain ⟨d, hd, -⟩ := mem_addrs_chainOf_iff.mp ha
  exact mem_map_of_mem hd

theorem nodup_chainOf (size hash : Nat) (h : (addrs held).Nodup) : (addrs (chainOf size hash held)).Nodup := by
  rw [chainOf, addrs, map_reverse, nodup_reverse, ← addrs, addrs_nodes]
  exact h.sublist (filter_sublist.map Prod.fst)

theorem chainOf_disjoint {hash' : Nat} (h : (addrs held).Nodup) (hne : hash ≠ hash')
    (ha : a ∈ addrs (chainOf size hash held)) : a ∉ addrs (chainOf size hash' held) := by
  intro ha'
  obtain ⟨d, hd, rfl⟩ := mem_addrs_chainOf_iff.mp ha
  obtain ⟨d', hd', rfl⟩ := mem_addrs_chainOf_iff.mp ha'
  have heq : (a, d) = (a, d') := inj_on_of_nodup_map h hd hd' rfl
  exact hne (by rw [(Prod.mk.inj heq).2])

/-- The entry that was stored first is the last of its chain. -/
theorem chainOf_cons : chainOf size hash ((a, d) :: held) = chainOf size hash held ++
      if keyHash size d.key = hash then [(a, d.item size)] else [] := by
  unfold chainOf
  rw [filter_cons]
  split_ifs with h1 h2 h2
  · simp
  · exact absurd (of_decide_eq_true h1) h2
  · exact absurd (decide_eq_true h2) h1
  · simp

/-- The entry that was stored last is the first of its chain. -/
theorem chainOf_concat : chainOf size hash (held ++ [(a, d)]) =
      (if keyHash size d.key = hash then [(a, d.item size)] else []) ++ chainOf size hash held := by
  unfold chainOf
  split_ifs with h
  · simp [nodes, h]
  · simp [h]

end Nodes

/-! ## Search -/

/-- In a chain the first entry with the key is what was stored last under it. -/
theorem latest_eq_chain (size : Nat) (key : List UInt8) (held : List (Nat × Stored)) :
    latest key (held.map Prod.snd) =
      (((held.filter fun n => keyHash size n.2.key = keyHash size key).reverse).find?
        fun n => n.2.key = key).map Prod.snd := by
  unfold latest
  rw [← map_reverse, find?_map, ← filter_reverse, find?_filter]
  congr 2
  funext n
  by_cases h : n.2.key = key
  all_goals simp [h]

theorem LocalCache.Rep.search_spec {c : LocalCache} {free : List (Nat × CacheItem)}
    {held : List (Nat × Stored)} (h : c.Rep free held) (ttl : Int) (now : Nat) (key : List UInt8)
    (dup : Dup) :
    c.search ttl now key dup =
      match latest key (held.map Prod.snd) with
      | none => some .null
      | some d => d.answer ttl now dup := by
  have hle := keyHash_le c.hashTableSize key
  have hstart := Segments.getElem?_eq_getD (l := c.hashTable) (i := keyHash c.hashTableSize key)
    (by rw [h.table]; omega) none
  have hseg := h.chain _ hle
  have hnd := nodup_chainOf c.hashTableSize (keyHash c.hashTableSize key) h.nodup.of_append_right
  have hlen := hseg.length_le hnd
  rw [length_hcells] at hlen
  rw [latest_eq_chain c.hashTableSize]
  unfold LocalCache.search
  rw [hstart, Option.bind_eq_bind, Option.bind_some]
  dsimp only
  generalize hchain : (held.filter fun n => decide (keyHash c.hashTableSize n.2.key =
    keyHash c.hashTableSize key)).reverse = chain
  have hof : chainOf c.hashTableSize (keyHash c.hashTableSize key) held =
      nodes c.hashTableSize chain := by
    rw [← hchain, chainOf, nodes, nodes, map_reverse]
  rw [hof] at hseg hlen
  -- what the comparison says of the cell of a node
  have hsame : ∀ n ∈ nodes c.hashTableSize chain, ∀ cell, (hcells c.entries)[n.1]? = some cell →
      cell.item.key.all (fun k => strOps.equal k key) =
        n.2.key.all fun k => strOps.equal k key := by
    intro n hn cell hcell
    rw [hseg.item_eq n hn cell hcell]
  cases hfind : chain.find? fun n => decide (n.2.key = key) with
  | none =>
    rw [search_of_none hseg ?_ (Nat.lt_succ_of_le hlen)]
    · rfl
    · intro n hn cell hcell
      rw [hsame n hn cell hcell]
      obtain ⟨m, hm, rfl⟩ := mem_map.mp hn
      simpa [Stored.item, strOps] using find?_eq_none.mp hfind m hm
  | some n =>
    obtain ⟨hkey, pre, post, rfl, hpre⟩ := find?_eq_some_iff_append.mp hfind
    have hkey' : n.2.key = key := of_decide_eq_true hkey
    have hheld : n ∈ held := by
      have hmem : n ∈ (held.filter fun n => decide (keyHash c.hashTableSize n.2.key =
          keyHash c.hashTableSize key)).reverse := by rw [hchain]; simp
      exact (mem_filter.mp (mem_reverse.mp hmem)).1
    rw [nodes_append] at hseg hlen hsame
    obtain ⟨next, hcell, -⟩ := hseg.split
    rw [search_of_split hseg hcell ?_ ?_ ?_]
    · exact answer_item (h.vals n hheld) ttl now dup
    · simpa [Stored.item, strOps] using hkey'
    · intro m hm cell hcell'
      rw [hsame m (mem_append_left _ hm) cell hcell']
      obtain ⟨m', hm', rfl⟩ := mem_map.mp hm
      simpa [Stored.item, strOps] using hpre m' hm'
    · rw [length_append] at hlen
      omega

/-! ## Update: the entry leaves its chain -/

namespace LocalCache

/-- The chain of `hash` is `ns`; only its links and its start may have changed. -/
structure Unlinked (c c' : LocalCache) (hash : Nat) (ns : List (Nat × CacheItem)) : Prop where
  queue : qcells c'.entries = qcells c.entries
  first : c'.firstQueueEntry = c.firstQueueEntry
  last : c'.lastQueueEntry = c.lastQueueEntry
  size : c'.hashTableSize = c.hashTableSize
  table : c'.hashTable.length = c.hashTable.length
  other : ∀ b ≠ hash, c'.hashTable.getD b none = c.hashTable.getD b none
  chain : Seg (hcells c'.entries) (c'.hashTable.getD hash none) ns none
  frame : ∀ x ∉ addrs ns, c'.entries[x]? = c.entries[x]?

section Unlink

variable {c : LocalCache} {a : Nat} {e : CacheEntry} {ns : List (Nat × CacheItem)}

/-- The address of a chain is not that of an entry outside of it. -/
theorem start_ne {entries : List CacheEntry} {p : Option Nat} (h : Seg (hcells entries) p ns none)
    (ha : a ∉ addrs ns) : p ≠ some a := by
  rintro rfl
  cases ns with
  | nil => exact Option.some_ne_none a h
  | cons n ns =>
    rw [Option.some.inj h.1] at ha
    exact ha mem_cons_self

/-- The loop goes to the last entry of a part of a chain that leads to the entry or to nothing. -/
theorem search_last {entries : List CacheEntry} {p q : Option Nat} {y fuel : Nat} {u : CacheItem}
    (h : Seg (hcells entries) p (ns ++ [(y, u)]) q) (ha : a ∉ addrs (ns ++ [(y, u)]))
    (hq : q = none ∨ q = some a) (hfuel : ns.length < fuel) :
    Links.search (hcells entries)
        (fun cell => decide (cell.next = none) || decide (cell.next = some a)) fuel none p =
      some (some (((ns.getLast?).map Prod.fst).or none, y, ⟨u, q⟩)) := by
  obtain ⟨next, hcell, -, hnext⟩ := h.split
  obtain rfl : next = q := hnext
  refine search_of_split h hcell (by rcases hq with rfl | rfl <;> simp) (fun n hn cell hcell => ?_)
    hfuel
  obtain ⟨b, hb, hnext⟩ := h.next_mem n hn cell hcell
  rw [hnext]
  simp only [reduceCtorEq, decide_false, Option.some.injEq, Bool.false_or, decide_eq_false_iff_not]
  rintro rfl
  exact ha hb

/-- An entry that is not in the chain its hash names. -/
theorem unlink_of_not_mem (he : c.entries[a]? = some e) (hhash : e.hash < c.hashTable.length)
    (hseg : Seg (hcells c.entries) (c.hashTable.getD e.hash none) ns none)
    (hnd : (addrs ns).Nodup) (ha : a ∉ addrs ns) : c.unlink a = some c := by
  have hlen := hseg.length_le hnd
  rw [length_hcells] at hlen
  unfold unlink
  simp only [he, Segments.getElem?_eq_getD hhash none, Option.bind_eq_bind, Option.bind_some]
  rw [if_neg (start_ne hseg ha)]
  rcases eq_nil_or_concat ns with rfl | ⟨ms, ⟨y, u⟩, rfl⟩
  · have hnil : c.hashTable.getD e.hash none = none := hseg
    rw [hnil]
    rfl
  · rw [concat_eq_append] at hseg ha hlen
    rw [search_last hseg ha (.inl rfl) (by rw [length_append] at hlen; omega), Option.bind_some]

/-- An entry that is the last of the chain its hash names. -/
theorem unlink_of_last (it : CacheItem) (he : c.entries[a]? = some e)
    (hhash : e.hash < c.hashTable.length)
    (hseg : Seg (hcells c.entries) (c.hashTable.getD e.hash none) (ns ++ [(a, it)]) none)
    (hnd : (addrs (ns ++ [(a, it)])).Nodup) :
    ∃ c', c.unlink a = some c' ∧ Unlinked c c' e.hash ns := by
  have hlen := hseg.length_le hnd
  obtain ⟨next, hacell, hpre, hnext⟩ := hseg.split
  obtain rfl : next = none := hnext
  rw [getElem?_hcells, he, Option.map_some, Option.some.injEq, Cell.mk.injEq] at hacell
  obtain ⟨-, hhnext⟩ := hacell
  unfold unlink
  simp only [he, Segments.getElem?_eq_getD hhash none, Option.bind_eq_bind, Option.bind_some]
  rcases eq_nil_or_concat ns with rfl | ⟨ms, ⟨y, u⟩, rfl⟩
  · -- it is the only one: the table leads to nothing
    have hstart : c.hashTable.getD e.hash none = some a := hpre
    rw [if_pos hstart, hhnext]
    refine ⟨_, rfl, rfl, rfl, rfl, rfl, length_set, ?_, ?_, fun x _ => rfl⟩
    · intro b hb
      rw [getD_eq_getElem?_getD, getD_eq_getElem?_getD, getElem?_set_ne (Ne.symm hb)]
    · rw [getD_eq_getElem?_getD, getElem?_set_self hhash]
      rfl
  -- the one before it becomes the last one
  rw [concat_eq_append] at hseg hnd hlen hpre ⊢
  rw [addrs_append, nodup_append'] at hnd
  obtain ⟨hnd, -, hdisj⟩ := hnd
  have ha : a ∉ addrs (ms ++ [(y, u)]) := fun ha => hdisj ha (by simp)
  have hy : y ∉ addrs ms := by
    rw [addrs_append, nodup_append'] at hnd
    exact fun hy => hnd.2.2 hy (by simp)
  obtain ⟨next, hycell, -, hynext⟩ := hpre.split
  obtain rfl : next = some a := hynext
  have hstart : c.hashTable.getD e.hash none ≠ some a := by
    intro hstart
    cases ms with
    | nil | cons m ms =>
      rw [hstart] at hpre
      exact ha (by rw [Option.some.inj hpre.1]; simp)
  obtain ⟨ey, hey, hyeq⟩ : ∃ ey, c.entries[y]? = some ey ∧
      (⟨ey.toCacheItem, ey.hnext⟩ : Cell CacheItem) = ⟨u, some a⟩ := by
    rw [getElem?_hcells, Option.map_eq_some_iff] at hycell
    exact hycell
  rw [Cell.mk.injEq] at hyeq
  rw [if_neg hstart, search_last hpre ha (.inr rfl) (by simp at hlen; omega), Option.bind_some]
  dsimp only
  rw [hey, Option.bind_some, he, Option.bind_some, hhnext]
  have hcells : hcells (c.entries.set y { ey with hnext := none }) =
      (hcells c.entries).set y ⟨u, none⟩ := by
    rw [hcells_set, ← hyeq.1]
  refine ⟨_, rfl, ?_, rfl, rfl, rfl, rfl, fun b _ => rfl, ?_, ?_⟩
  · exact qcells_set_self hey rfl rfl
  · rw [hcells]
    exact hpre.redirect hy
  · intro x hx
    rw [getElem?_set_ne]
    rintro rfl
    exact hx (by simp)

end Unlink

/-! ## Update: the entry is taken out of use -/

section Evict

variable {c : LocalCache} {a : Nat} {it : CacheItem} {d : Stored} {free : List (Nat × CacheItem)}
  {held : List (Nat × Stored)}

/-- The first entry of the queue `a` is taken out of use. `held` are the entries in use that
stay, and `tail` says whether `a` is the last of its chain. -/
theorem evict_spec {e : CacheEntry} {rest : List (Nat × CacheItem)}
    (hqueue : Seg (qcells c.entries) c.firstQueueEntry ((a, e.toCacheItem) :: rest) none)
    (held : List (Nat × Stored)) (hrest : a ∉ addrs rest) (he : c.entries[a]? = some e)
    (hheld : a ∉ addrs held)
    (hnd : (addrs held).Nodup) (htable : c.hashTable.length = c.hashTableSize + 1)
    (hhash : e.hash ≤ c.hashTableSize) {tail : List (Nat × CacheItem)}
    (htail : tail = [] ∨ tail = [(a, e.toCacheItem)])
    (hchain : ∀ hash ≤ c.hashTableSize, Seg (hcells c.entries) (c.hashTable.getD hash none)
      (chainOf c.hashTableSize hash held ++ if e.hash = hash then tail else []) none) :
    ∃ c' it', c.evict a = some c' ∧
      Seg (qcells c'.entries) c'.firstQueueEntry ((a, it') :: rest) none ∧
      c'.lastQueueEntry = c.lastQueueEntry ∧ c'.hashTableSize = c.hashTableSize ∧
      c'.hashTable.length = c.hashTable.length ∧ c'.entries.length = c.entries.length ∧
      (∀ hash ≤ c.hashTableSize, Seg (hcells c'.entries) (c'.hashTable.getD hash none)
        (chainOf c.hashTableSize hash held) none) ∧
      it'.key = none ∧ it'.hash = 0 ∧ it'.time = 0 := by
  have hlt : a < c.entries.length := (List.getElem?_eq_some_iff.mp he).1
  have hoff : ∀ hash, a ∉ addrs (chainOf c.hashTableSize hash held) := fun hash ha =>
    hheld (mem_addrs_chainOf ha)
  -- the data is freed first
  obtain ⟨c₁, hc₁⟩ : ∃ c₁ : LocalCache, c₁ = { c with entries := c.entries.set a e.release } :=
    ⟨_, rfl⟩
  have he₁ : c₁.entries[a]? = some e.release := by
    rw [hc₁]
    exact getElem?_set_self hlt
  have hhash₁ : e.release.hash < c₁.hashTable.length := by
    rw [hc₁]
    exact htable ▸ Nat.lt_succ_of_le hhash
  have hcells₁ : hcells c₁.entries = (hcells c.entries).set a ⟨e.release.toCacheItem, e.hnext⟩ := by
    rw [hc₁, hcells_set]
    rfl
  have hother₁ : ∀ hash ≤ c.hashTableSize, hash ≠ e.hash → Seg (hcells c₁.entries)
      (c₁.hashTable.getD hash none) (chainOf c.hashTableSize hash held) none := by
    intro hash hle hne
    have hseg := hchain hash hle
    rw [if_neg (Ne.symm hne), append_nil] at hseg
    rw [hcells₁, hc₁]
    exact hseg.set (hoff hash) _
  obtain ⟨c₂, hunlink, hu⟩ : ∃ c₂, c₁.unlink a = some c₂ ∧
      Unlinked c₁ c₂ e.hash (chainOf c.hashTableSize e.hash held) := by
    have hseg := hchain e.hash hhash
    rw [if_pos rfl] at hseg
    rcases htail with rfl | rfl
    · rw [append_nil] at hseg
      have hseg₁ : Seg (hcells c₁.entries) (c₁.hashTable.getD e.release.hash none)
          (chainOf c.hashTableSize e.hash held) none := by
        rw [hcells₁, hc₁]
        exact hseg.set (hoff e.hash) _
      exact ⟨c₁, unlink_of_not_mem he₁ hhash₁ hseg₁ (nodup_chainOf _ _ hnd) (hoff e.hash),
        ⟨rfl, rfl, rfl, rfl, rfl, fun b _ => rfl, hseg₁, fun x _ => rfl⟩⟩
    have hnext : e.hnext = none := by
      obtain ⟨next, hcell, -, hnext⟩ := hseg.split
      rw [getElem?_hcells, he, Option.map_some, Option.some.injEq, Cell.mk.injEq] at hcell
      exact hcell.2.trans hnext
    refine unlink_of_last e.release.toCacheItem (e := e.release) he₁ hhash₁ ?_ ?_
    · rw [hcells₁, hc₁, hnext]
      exact hseg.set_last (hoff e.hash) _
    · rw [addrs_append, nodup_append']
      exact ⟨nodup_chainOf _ _ hnd, by simp, by simpa using hoff e.hash⟩
  -- then it is linked nowhere and can be written
  have he₂ : c₂.entries[a]? = some e.release := by
    rw [hu.frame a (hoff e.hash), he₁]
  have hlen₂ : c₂.entries.length = c.entries.length := by
    have hq := congrArg length hu.queue
    rw [length_qcells, length_qcells, hc₁, length_set] at hq
    exact hq
  have hchain₂ : ∀ hash ≤ c.hashTableSize, Seg (hcells c₂.entries)
      (c₂.hashTable.getD hash none) (chainOf c.hashTableSize hash held) none := by
    intro hash hle
    by_cases hne : hash = e.hash
    · rw [hne]
      exact hu.chain
    · rw [hu.other hash hne]
      refine (hother₁ hash hle hne).frame fun x hx => ?_
      rw [getElem?_hcells, getElem?_hcells, hu.frame x (chainOf_disjoint hnd hne hx)]
  refine ⟨{ c₂ with entries := c₂.entries.set a { e.release with hnext := none, time := 0, hash := 0 } },
    { e.release.toCacheItem with time := 0, hash := 0 }, ?_, ?_, hu.last.trans (by rw [hc₁]), hu.size.trans (by rw [hc₁]),
    hu.table.trans (by rw [hc₁]), ?_, ?_, rfl, rfl, rfl⟩
  · unfold evict
    simp only [he, Option.bind_eq_bind, Option.bind_some]
    rw [← hc₁, hunlink, Option.bind_some, he₂, Option.bind_some]
  · rw [qcells_set, hu.queue, hu.first, hc₁, qcells_set, set_set]
    obtain ⟨hfirst, next, hcell, hseg⟩ := hqueue
    refine ⟨hfirst, next, ?_, hseg.set hrest _⟩
    rw [getElem?_set_self (by rw [length_qcells]; exact hlt)]
    rw [getElem?_qcells, he, Option.map_some, Option.some.injEq, Cell.mk.injEq] at hcell
    rw [← hcell.2]
    rfl
  · rw [length_set, hlen₂]
  · intro hash hle
    rw [hcells_set]
    exact (hchain₂ hash hle).set (hoff hash) _

theorem Rep.entry_of_mem (h : c.Rep free held) {n : Nat × CacheItem}
    (hn : n ∈ free ++ nodes c.hashTableSize held) :
    ∃ e, c.entries[n.1]? = some e ∧ e.toCacheItem = n.2 := by
  have hlt : n.1 < c.entries.length := by
    rw [← length_qcells]
    exact h.queue.lt_length n.1 (mem_map_of_mem hn)
  refine ⟨c.entries[n.1], getElem?_eq_getElem hlt, ?_⟩
  exact h.queue.item_eq n hn ⟨c.entries[n.1].toCacheItem, c.entries[n.1].qnext⟩
    (by rw [getElem?_qcells, getElem?_eq_getElem hlt]; rfl)

theorem Rep.evict (h : c.Rep free held) {free' : List (Nat × CacheItem)}
    {held' : List (Nat × Stored)} {tail : List (Nat × CacheItem)}
    (hcons : free ++ nodes c.hashTableSize held = (a, it) :: (free' ++ nodes c.hashTableSize held'))
    (hfree : free' ⊆ free) (hheld : held' ⊆ held) (hhash : it.hash ≤ c.hashTableSize)
    (htail : tail = [] ∨ tail = [(a, it)])
    (hchain : ∀ hash, chainOf c.hashTableSize hash held =
      chainOf c.hashTableSize hash held' ++ if it.hash = hash then tail else []) :
    ∃ c' it', c.evict a = some c' ∧ c'.Rep ((a, it') :: free') held' ∧
      c'.hashTableSize = c.hashTableSize ∧ c'.entries.length = c.entries.length := by
  obtain ⟨e, he, rfl⟩ := h.entry_of_mem (n := (a, it)) (by rw [hcons]; simp)
  have haddrs := congrArg addrs hcons
  rw [addrs_append, addrs_nodes, addrs_cons, addrs_append, addrs_nodes] at haddrs
  have hnd := h.nodup
  rw [haddrs, nodup_cons] at hnd
  have hqueue := h.queue
  rw [hcons] at hqueue
  obtain ⟨c', it', hevict, hqueue', hlast, hsize, htable, hlen, hchain', hkey, hzero⟩ :=
    evict_spec hqueue held' (by rw [addrs_append, addrs_nodes]; exact hnd.1) he
      (fun ha => hnd.1 (mem_append_right _ ha)) hnd.2.of_append_right h.table hhash htail
      (fun hash hle => hchain hash ▸ h.chain hash hle)
  refine ⟨c', it', hevict, ?_, hsize, hlen⟩
  exact
    { queue := by rw [hsize]; exact hqueue'
      last := by
        rw [hlast, h.last, hcons, hsize]
        rfl
      nodup := by
        rw [addrs_cons, cons_append, nodup_cons]
        exact hnd
      all := by
        have hcount := congrArg length haddrs
        simp only [length_append, length_cons, length_addrs] at hcount
        rw [hlen, ← h.all, length_cons]
        omega
      table := by rw [htable, h.table, hsize]
      chain := by rw [hsize]; exact hchain'
      unused := by
        intro n hn
        rcases mem_cons.mp hn with rfl | hmem
        · exact ⟨hkey, hzero⟩
        · exact h.unused n (hfree hmem)
      vals := fun n hn => h.vals n (hheld hn) }

variable (h : c.Rep ((a, it) :: free) held)
include h

theorem Rep.queue_cons : ∃ e, c.entries[a]? = some e ∧ c.firstQueueEntry = some a ∧
      Seg (qcells c.entries) e.qnext (free ++ nodes c.hashTableSize held) none ∧
      a ∉ addrs free ++ addrs held := by
  have hnd := h.nodup
  rw [addrs_cons, cons_append, nodup_cons] at hnd
  obtain ⟨e, he, -⟩ := h.entry_of_mem (n := (a, it)) (by simp)
  have hqueue := h.queue
  obtain ⟨hfirst, next, hcell, hseg⟩ := hqueue
  rw [getElem?_qcells, he, Option.map_some, Option.some.injEq, Cell.mk.injEq] at hcell
  exact ⟨e, he, hfirst, hcell.2 ▸ hseg, hnd.1⟩

/-- An entry that is not in use can be written as long as it is not used. -/
theorem Rep.set_unused {e : CacheEntry} (he : c.entries[a]? = some e) {it' : CacheItem}
    (hunused : it'.key = none ∧ it'.hash = 0 ∧ it'.time = 0) :
    { c with entries := c.entries.set a { e with toCacheItem := it' } }.Rep
      ((a, it') :: free) held := by
  have hlt : a < c.entries.length := (List.getElem?_eq_some_iff.mp he).1
  obtain ⟨e', he', hfirst, hseg, hoff⟩ := h.queue_cons
  obtain rfl : e = e' := Option.some.inj (he.symm.trans he')
  exact
    { h with
      queue := by
        rw [qcells_set]
        refine ⟨hfirst, e.qnext, ?_, hseg.set (by rw [addrs_append, addrs_nodes]; exact hoff) _⟩
        rw [getElem?_set_self (by rw [length_qcells]; exact hlt)]
      all := by rw [length_set]; exact h.all
      chain := fun hash hle => by
        rw [hcells_set]
        exact (h.chain hash hle).set (fun ha => hoff (mem_append_right _ (mem_addrs_chainOf ha))) _
      unused := by
        intro n hn
        rcases mem_cons.mp hn with rfl | hmem
        · exact hunused
        · exact h.unused n (mem_cons_of_mem _ hmem) }

/-! ## Update: the entry is used again -/

variable (htwo : 2 ≤ c.entries.length)
include htwo

/-- With two entries the first one of the queue is not the last one. -/
theorem Rep.last_of_two :
    ∃ rest z l, free ++ nodes c.hashTableSize held = rest ++ [(z, l.toCacheItem)] ∧
      c.lastQueueEntry = some z ∧ c.entries[z]? = some l ∧ z ∉ addrs rest ∧ z ≠ a := by
  have hnd := h.nodup
  rw [addrs_cons, cons_append, nodup_cons] at hnd
  rcases eq_nil_or_concat (free ++ nodes c.hashTableSize held) with hnil | ⟨rest, n, hn⟩
  · have hall := h.all
    have hlen := congrArg length hnil
    rw [length_append, nodes, length_map, length_nil] at hlen
    rw [length_cons] at hall
    omega
  rw [concat_eq_append] at hn
  have haddrs := congrArg addrs hn
  rw [addrs_append, addrs_nodes, addrs_append] at haddrs
  rw [haddrs, mem_append, not_or, nodup_append'] at hnd
  obtain ⟨l, hl, hitem⟩ := h.entry_of_mem (n := n) (by rw [cons_append, hn]; simp)
  refine ⟨rest, n.1, l, by rw [hitem, hn], ?_, hl, fun hz => hnd.2.2.2 hz (by simp), ?_⟩
  · rw [h.last, cons_append, hn, ← cons_append, addrs_append, addrs_cons _ [],
      addrs_nil, getLast?_concat]
  · rintro rfl
    exact hnd.1.2 (by simp)

theorem Rep.requeue (hval : d.val ≠ some []) :
    ∃ c', c.requeue a (keyHash c.hashTableSize d.key) (d.item c.hashTableSize) = some c' ∧
      c'.Rep free (held ++ [(a, d)]) ∧ c'.hashTableSize = c.hashTableSize ∧
      c'.entries.length = c.entries.length := by
  obtain ⟨e, he, hfirst, hseg, hoff⟩ := h.queue_cons
  obtain ⟨rest, z, l, hrest, hlast, hl, hz, hza⟩ := h.last_of_two htwo
  have hlt : a < c.entries.length := (List.getElem?_eq_some_iff.mp he).1
  have hle := keyHash_le c.hashTableSize d.key
  have hhead := Segments.getElem?_eq_getD (l := c.hashTable) (i := keyHash c.hashTableSize d.key)
    (by rw [h.table]; omega) none
  have hchainOff : ∀ hash, a ∉ addrs (chainOf c.hashTableSize hash held) := fun hash ha =>
    hoff (mem_append_right _ (mem_addrs_chainOf ha))
  -- the entries when the links have been written
  obtain ⟨new, hnew⟩ : ∃ new : CacheEntry, new = { d.item c.hashTableSize with
      qnext := none, hnext := c.hashTable.getD (keyHash c.hashTableSize d.key) none } := ⟨_, rfl⟩
  obtain ⟨entries, hentries⟩ : ∃ entries : List CacheEntry,
      entries = (c.entries.set z { l with qnext := some a }).set a new := ⟨_, rfl⟩
  have hnewcell : entries[a]? = some new := by
    rw [hentries]
    exact getElem?_set_self (by rw [length_set]; exact hlt)
  have hhcells : ∀ x ≠ a, (hcells entries)[x]? = (hcells c.entries)[x]? := by
    intro x hx
    rw [hentries, getElem?_hcells, getElem?_hcells, getElem?_set_ne (Ne.symm hx)]
    by_cases hxz : x = z
    · rw [hxz, getElem?_set_self (List.getElem?_eq_some_iff.mp hl).1, hl]
      rfl
    · rw [getElem?_set_ne (Ne.symm hxz)]
  refine ⟨{ c with
    firstQueueEntry := e.qnext
    lastQueueEntry := some a
    hashTable := c.hashTable.set (keyHash c.hashTableSize d.key) (some a)
    entries := entries }, ?_, ?_, rfl, by rw [hentries, length_set, length_set]⟩
  · unfold LocalCache.requeue
    simp only [he, hlast, hhead, Option.bind_eq_bind, Option.bind_some,
      getElem?_set_ne (Ne.symm hza), hl]
    rw [hentries, hnew, set_comm _ _ hza, set_set, set_comm _ _ hza]
  · exact
      { queue := by
          rw [nodes_append, ← append_assoc, hrest, hentries, qcells_set, qcells_set]
          have hrestOff : a ∉ addrs (rest ++ [(z, l.toCacheItem)]) := by
            rw [← hrest, addrs_append, addrs_nodes]
            exact hoff
          rw [hrest] at hseg
          refine seg_append.mpr ⟨some a, (hseg.redirect hz).set hrestOff _, ?_⟩
          refine seg_singleton.mpr ⟨rfl, ?_⟩
          rw [getElem?_set_self (by rw [length_set, length_qcells]; exact hlt), hnew]
        last := by
          rw [nodes_append, ← append_assoc, addrs_append]
          exact getLast?_concat.symm
        nodup := by
          have hnd := h.nodup
          rw [addrs_append, ← append_assoc]
          exact nodup_append_comm.mp hnd
        all := by
          have hall := h.all
          rw [length_cons] at hall
          rw [hentries, length_set, length_set, length_append, length_singleton]
          omega
        table := by rw [length_set]; exact h.table
        chain := by
          intro hash hhash
          rw [chainOf_concat]
          have hold : Seg (hcells entries) (c.hashTable.getD hash none)
              (chainOf c.hashTableSize hash held) none :=
            (h.chain hash hhash).frame fun x hx => hhcells x fun hxa => hchainOff hash (hxa ▸ hx)
          by_cases heq : keyHash c.hashTableSize d.key = hash
          · subst heq
            rw [if_pos rfl, getD_eq_getElem?_getD, getElem?_set_self (by rw [h.table]; omega)]
            refine ⟨rfl, _, ?_, hold⟩
            rw [getElem?_hcells, hnewcell, hnew]
            rfl
          · rw [if_neg heq, getD_eq_getElem?_getD, getElem?_set_ne heq]
            exact hold
        unused := (forall_mem_cons.mp h.unused).2
        vals := by
          intro n hn
          rcases mem_append.mp hn with hmem | hmem
          · exact h.vals n hmem
          · rw [mem_singleton.mp hmem]
            exact hval }

end Evict

end LocalCache

end CIcap
