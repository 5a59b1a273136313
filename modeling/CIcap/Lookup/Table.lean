import CIcap.Lookup.Row

/-! # Text tables and hash tables

The loader and the two searches of `lookup_file_table.c` over the hash table of `hash.c`. Both
kinds of table are loaded from the same lines. A `file` table is searched in the order of the
lines, a `hash` table through the chain of the key's hash, to which every row was put in front:
of the rows that are equal to a key the first one is found in the one and the last one in the
other, if it hashes like the key. Memory is never refused.
-/

namespace CIcap

open CText List

/-! ## The loader -/

/-- `fgets`: the line, with its newline, and what is left of the file. -/
def fgets (size : Nat) (file : List UInt8) : Option (List UInt8 × List UInt8) :=
  if file = [] then none
  else
    let block := file.take (size - 1)
    let line := block.take ((block.takeWhile (· != 10)).length + 1)
    some (line, file.drop line.length)

section Load

variable {κ ν : Type}

/-- `read_row`: none at the end of the file, otherwise the entry of the next line, if it has one,
and what is left of the file. -/
def readRow (keyDup : List UInt8 → Option κ) (valDup : List UInt8 → Option ν) (cols : Int)
    (file : List UInt8) : Outcome (Option (Option (TextTableEntry κ ν) × List UInt8)) :=
  match fgets 65535 file with
  | none => .ok none
  | some (line, file) =>
    match (cstr line).length with
    | 0 => .fault
    | last + 1 =>
      let buf := line ++ [0]
      let buf := if byteAt buf last = 10 then buf.set last 0 else buf
      match parseRow keyDup valDup cols buf with
      | .fault => .fault
      | .error code => .error code
      | .ok e => .ok (some (e, file))

/-- `struct text_table` -/
structure TextTable (κ ν : Type) where
  entries : List (TextTableEntry κ ν)
  rows : Nat

/-- The loop of `load_text_table`; every row takes at least a byte of the file. -/
def loadRows (keyDup : List UInt8 → Option κ) (valDup : List UInt8 → Option ν) (cols : Int) :
    Nat → List UInt8 → TextTable κ ν → Outcome (TextTable κ ν)
  | 0, _, _ => .fault
  | fuel + 1, file, t =>
    match readRow keyDup valDup cols file with
    | .fault => .fault
    | .error code => .error code
    | .ok none => .ok t
    | .ok (some (e, file)) =>
      loadRows keyDup valDup cols fuel file
        { entries := t.entries ++ e.toList, rows := t.rows + 1 }

theorem fgets_length {size : Nat} {file line rest : List UInt8} (hsize : 1 < size)
    (h : fgets size file = some (line, rest)) : rest.length < file.length := by
  unfold fgets at h
  split_ifs at h with hnil
  cases h
  have hpos : 0 < file.length := length_pos_iff.mpr hnil
  rw [length_drop, length_take, length_take]
  omega

theorem readRow_length {keyDup : List UInt8 → Option κ} {valDup : List UInt8 → Option ν}
    {cols : Int} {file rest : List UInt8} {e : Option (TextTableEntry κ ν)}
    (h : readRow keyDup valDup cols file = .ok (some (e, rest))) : rest.length < file.length := by
  unfold readRow at h
  cases hget : fgets 65535 file with
  | none => rw [hget] at h; cases h
  | some lr =>
    rw [hget] at h
    dsimp only at h
    split at h
    · cases h
    · split at h
      · cases h
      · cases h
      · cases h
        exact fgets_length (by decide) hget

/-- The loop has fuel enough: more changes nothing. -/
theorem loadRows_fuel (keyDup : List UInt8 → Option κ) (valDup : List UInt8 → Option ν)
    (cols : Int) (fuel more : Nat) (file : List UInt8) (t : TextTable κ ν)
    (h : file.length < fuel) :
    loadRows keyDup valDup cols (fuel + more) file t = loadRows keyDup valDup cols fuel file t := by
  induction fuel generalizing file t with
  | zero => omega
  | succ fuel ih =>
    rw [Nat.add_right_comm, loadRows, loadRows]
    cases hread : readRow keyDup valDup cols file with
    | fault | error code => rfl
    | ok r =>
      cases r with
      | none => rfl
      | some r =>
        have hless := readRow_length hread
        exact ih r.2 _ (by omega)

/-- `file_table_open` with `load_text_table`, on the contents of the file -/
def fileTableOpen (keyOps : TypeOps κ) (valDup : List UInt8 → Option ν) (file : List UInt8) :
    Outcome (TextTable κ ν) :=
  loadRows keyOps.dup valDup tableCols (file.length + 1) file { entries := [], rows := 0 }

/-- `file_table_search` -/
def fileTableSearch (keyOps : TypeOps κ) (t : TextTable κ ν) (key : κ) :
    Option (TextTableEntry κ ν) :=
  t.entries.find? fun e => keyOps.equal e.key key

end Load

/-! ## The hash table -/

/-- `ci_hash_compute` of `len` bytes, or of a string if `len` is zero -/
def hashCompute (hashMax : Nat) (mem : List UInt8) (len : Nat) : Nat :=
  let key := if len ≠ 0 then mem.take len else cstr mem
  let hash := key.foldl (fun (hash : UInt64) b => (hash <<< 5) + hash + b.toUInt64) 5381
  let hash := if hash = 0 then hash + 1 else hash
  hash.toNat &&& hashMax

/-- The size that `ci_hash_build` chooses: the next of 63, 127, … up to `0xFFFFFF`. -/
def hashSize (rows : Nat) : Nat :=
  (range 18).foldl (fun size _ =>
    if size < rows ∧ size < 0xFFFFFF then (size + 1) * 2 - 1 else size) 63

section Hash

variable {κ ν : Type}

/-- `struct ci_hash_table`: the entries of each chain -/
structure CHash (κ ν : Type) where
  size : Nat
  chains : List (List (TextTableEntry κ ν))

/-- `ci_hash_build` -/
def CHash.build (rows : Nat) : CHash κ ν :=
  { size := hashSize rows, chains := replicate (hashSize rows + 1) [] }

def CHash.hash (keyOps : TypeOps κ) (h : CHash κ ν) (key : κ) : Nat :=
  hashCompute h.size (keyOps.mem key) (keyOps.size key)

/-- `ci_hash_add` -/
def CHash.add (keyOps : TypeOps κ) (h : CHash κ ν) (e : TextTableEntry κ ν) : CHash κ ν :=
  { h with chains := h.chains.modify (h.hash keyOps e.key) fun chain => e :: chain }

/-- `ci_hash_search` -/
def CHash.search (keyOps : TypeOps κ) (h : CHash κ ν) (key : κ) : Option (TextTableEntry κ ν) :=
  (h.chains.getD (h.hash keyOps key) []).find? fun e => keyOps.equal e.key key

/-- The hash table that `hash_table_open` builds -/
def TextTable.toHash (keyOps : TypeOps κ) (t : TextTable κ ν) : CHash κ ν :=
  t.entries.foldl (CHash.add keyOps) (CHash.build t.rows)

/-- Search a key in a table that is opened as `file:`. -/
def fileLookup (keyOps : TypeOps κ) (valDup : List UInt8 → Option ν) (file : List UInt8) (key : κ) :
    Outcome (Option (TextTableEntry κ ν)) :=
  match fileTableOpen keyOps valDup file with
  | .fault => .fault
  | .error code => .error code
  | .ok t => .ok (fileTableSearch keyOps t key)

/-- Search a key in a table that is opened as `hash:`. -/
def hashLookup (keyOps : TypeOps κ) (valDup : List UInt8 → Option ν) (file : List UInt8) (key : κ) :
    Outcome (Option (TextTableEntry κ ν)) :=
  match fileTableOpen keyOps valDup file with
  | .fault => .fault
  | .error code => .error code
  | .ok t => .ok ((t.toHash keyOps).search keyOps key)

/-! ## The chains -/

variable {keyOps : TypeOps κ}

theorem hashCompute_le (hashMax : Nat) (mem : List UInt8) (len : Nat) :
    hashCompute hashMax mem len ≤ hashMax := Nat.and_le_right

/-- The rows of a hash table, in the order in which they were added. -/
structure CHash.Holds (keyOps : TypeOps κ) (h : CHash κ ν) (size : Nat)
    (entries : List (TextTableEntry κ ν)) : Prop where
  size_eq : h.size = size
  length : h.chains.length = size + 1
  chain : ∀ n ≤ size, h.chains.getD n [] =
    (entries.filter fun e => hashCompute size (keyOps.mem e.key) (keyOps.size e.key) == n).reverse

theorem CHash.holds_build (keyOps : TypeOps κ) (rows : Nat) :
    CHash.Holds keyOps (CHash.build rows : CHash κ ν) (hashSize rows) [] where
  size_eq := rfl
  length := length_replicate
  chain := by
    intro n hn
    rw [CHash.build, getD_eq_getElem?_getD, getElem?_replicate]
    split_ifs <;> rfl

theorem CHash.Holds.add {h : CHash κ ν} {size : Nat} {entries : List (TextTableEntry κ ν)}
    (hh : CHash.Holds keyOps h size entries) (e : TextTableEntry κ ν) :
    CHash.Holds keyOps (h.add keyOps e) size (entries ++ [e]) where
  size_eq := hh.size_eq
  length := by
    rw [CHash.add, length_modify]
    exact hh.length
  chain := by
    intro n hn
    have hchain := hh.chain n hn
    have hlt : n < h.chains.length := by
      rw [hh.length]
      omega
    rw [getD_eq_getElem?_getD, getElem?_eq_getElem hlt, Option.getD_some] at hchain
    rw [CHash.add, CHash.hash, hh.size_eq, getD_eq_getElem?_getD, getElem?_modify, getElem?_eq_getElem hlt, hchain]
    by_cases heq : hashCompute size (keyOps.mem e.key) (keyOps.size e.key) = n
    all_goals simp [heq]

theorem CHash.Holds.foldl {h : CHash κ ν} {size : Nat} {before : List (TextTableEntry κ ν)}
    (hh : CHash.Holds keyOps h size before) (entries : List (TextTableEntry κ ν)) :
    CHash.Holds keyOps (entries.foldl (CHash.add keyOps) h) size (before ++ entries) := by
  induction entries generalizing h before with
  | nil =>
    rw [append_nil]
    exact hh
  | cons e entries ih =>
    have hnext := ih (hh.add e)
    rw [append_assoc] at hnext
    exact hnext

/-- The rows of a table that are equal to a key and hash like it. -/
def TextTable.candidates (keyOps : TypeOps κ) (t : TextTable κ ν) (key : κ) :
    List (TextTableEntry κ ν) :=
  t.entries.filter fun e =>
    hashCompute (hashSize t.rows) (keyOps.mem e.key) (keyOps.size e.key) ==
      hashCompute (hashSize t.rows) (keyOps.mem key) (keyOps.size key) && keyOps.equal e.key key

/-- **The search in the hash table** finds the last row that is equal to the key and hashes like
it. -/
theorem search_toHash (t : TextTable κ ν) (key : κ) :
    (t.toHash keyOps).search keyOps key = (t.candidates keyOps key).getLast? := by
  have hholds := (CHash.holds_build keyOps t.rows).foldl t.entries
  unfold CHash.search TextTable.toHash TextTable.candidates
  rw [CHash.hash, hholds.size_eq, hholds.chain _ (hashCompute_le _ _ _), ← head?_filter,
    filter_reverse, head?_reverse, filter_filter]
  congr 2
  funext e
  exact Bool.and_comm _ _

/-- The first row that is equal to the key hashes like it, and the last row that is equal to the
key and hashes like it has the same key and values. -/
def TextTable.Unambiguous (keyOps : TypeOps κ) (t : TextTable κ ν) (key : κ) : Prop :=
  ∀ e, t.entries.find? (fun e => keyOps.equal e.key key) = some e →
    (t.candidates keyOps key).getLast? = some e

end Hash

/-- **File tables and hash tables.** A key is searched with the same result in a table opened as
`file:` and as `hash:`, exactly if the rows of the table are unambiguous for it. -/
theorem file_and_hash_lookup {κ ν : Type} (keyOps : TypeOps κ) (valDup : List UInt8 → Option ν)
    (file : List UInt8) (key : κ) :
    hashLookup keyOps valDup file key = fileLookup keyOps valDup file key ↔
      ∀ t, fileTableOpen keyOps valDup file = .ok t → t.Unambiguous keyOps key := by
  unfold hashLookup fileLookup
  cases hopen : fileTableOpen keyOps valDup file with
  | fault | error code => simp
  | ok t =>
    simp only [Outcome.ok.injEq, forall_eq', fileTableSearch, search_toHash]
    constructor
    · intro hsame e he
      rw [hsame, he]
    · intro hrows
      cases hfirst : t.entries.find? fun e => keyOps.equal e.key key with
      | some e => exact hrows e hfirst
      | none =>
        -- no row is equal to the key, so there is no candidate
        rw [getLast?_eq_none_iff, TextTable.candidates, filter_eq_nil_iff]
        intro e he
        have hne := find?_eq_none.mp hfirst e he
        simp [hne]

/-- Of two rows with one key the file table finds the first and the hash table the last; a row
with the key `*` is equal to every key, but it is found only in its own chain. -/
theorem lookups_differ : fileLookup strOps some (bytes "a:1\na:2\n") (bytes "a") =
      .ok (some { key := bytes "a", vals := some [some (bytes "1")] }) ∧
    hashLookup strOps some (bytes "a:1\na:2\n") (bytes "a") =
      .ok (some { key := bytes "a", vals := some [some (bytes "2")] }) ∧
    fileLookup strExtOps some (bytes "*:1\n") (bytes "b") =
      .ok (some { key := bytes "*", vals := some [some (bytes "1")] }) ∧
    hashLookup strExtOps (some : List UInt8 → _) (bytes "*:1\n") (bytes "b") = .ok none := by
  decide +kernel

end CIcap
