import CIcap.Filetype.Magics

/-! # Detecting a type

`ci_magics_db_data_type` looks for a record whose blocks are in the data, and otherwise tells texts
from other data by their bytes. The data are the first `buflen` bytes of a buffer. What a read past
them, or past the arrays of the database, returns is not determined by them: the result is then
`none`. The same holds for a `memcmp` with a pointer that is not into the data.
-/

namespace CIcap

open CText

/-! ## Records -/

namespace MagicBlock

def Inside (b : MagicBlock) (buf : List UInt8) : Prop :=
  0 ≤ b.offset ∧ b.offset + b.magic.length ≤ buf.length

instance (b : MagicBlock) (buf : List UInt8) : Decidable (b.Inside buf) :=
  inferInstanceAs (Decidable (_ ∧ _))

/-- The data have the bytes of the block at its offset. -/
def equalTo (b : MagicBlock) (buf : List UInt8) : Bool :=
  (buf.drop b.offset.toNat).take b.magic.length == b.magic

/-- `memcmp(test, magic, len) == 0` -/
def memcmp (b : MagicBlock) (buf : List UInt8) : Option Bool :=
  if b.Inside buf then some (b.equalTo buf) else none

end MagicBlock

namespace MagicsDb

/-- `magics[j]->blocks[j]`, whose offset the bound of a block is computed with. -/
def boundBlock (db : MagicsDb) (j : Nat) : Option MagicBlock :=
  db.magics[j]?.bind (fun m => m.blocks[j]?)

/-- The bound `required` of a block lets it through. -/
def Passes (bound b : MagicBlock) (buf : List UInt8) : Prop :=
  toInt32 (bound.offset + b.magic.length) ≤ buf.length

instance (bound b : MagicBlock) (buf : List UInt8) : Decidable (Passes bound b buf) :=
  inferInstanceAs (Decidable (_ ≤ _))

/-- The loop over the blocks of a record, from block `j` on: whether all of them match. -/
def checkBlocks (db : MagicsDb) (buf : List UInt8) : Nat → List MagicBlock → Option Bool
  | _, [] => some true
  | j, b :: blocks =>
    match db.boundBlock j with
    | none => none
    | some bound =>
      if Passes bound b buf then
        match b.memcmp buf with
        | none => none
        | some false => some false
        | some true => checkBlocks db buf (j + 1) blocks
      else some false

/-- The loop of `check_magics` over the records. -/
def checkMagics (db : MagicsDb) (buf : List UInt8) : List Magic → Option Int
  | [] => some (-1)
  | m :: magics =>
    match db.checkBlocks buf 0 m.blocks with
    | none => none
    | some true => some m.type
    | some false => checkMagics db buf magics

end MagicsDb

/-! ## Texts -/

/-- `text_chars`: 1 for plain ASCII text, 2 for ISO-8859 text, 4 for other extended ASCII. -/
def textChars (b : UInt8) : Nat :=
  [ 0, 0, 0, 0, 0, 0, 0, 1, 1, 1, 1, 0, 1, 1, 0, 0,
    0, 0, 0, 0, 0, 0, 0, 0, 0, 0, 0, 1, 0, 0, 0, 0,
    1, 1, 1, 1, 1, 1, 1, 1, 1, 1, 1, 1, 1, 1, 1, 1,
    1, 1, 1, 1, 1, 1, 1, 1, 1, 1, 1, 1, 1, 1, 1, 1,
    1, 1, 1, 1, 1, 1, 1, 1, 1, 1, 1, 1, 1, 1, 1, 1,
    1, 1, 1, 1, 1, 1, 1, 1, 1, 1, 1, 1, 1, 1, 1, 1,
    1, 1, 1, 1, 1, 1, 1, 1, 1, 1, 1, 1, 1, 1, 1, 1,
    1, 1, 1, 1, 1, 1, 1, 1, 1, 1, 1, 1, 1, 1, 1, 0,
    4, 4, 4, 4, 4, 1, 4, 4, 4, 4, 4, 4, 4, 4, 4, 4,
    4, 4, 4, 4, 4, 4, 4, 4, 4, 4, 4, 4, 4, 4, 4, 4,
    2, 2, 2, 2, 2, 2, 2, 2, 2, 2, 2, 2, 2, 2, 2, 2,
    2, 2, 2, 2, 2, 2, 2, 2, 2, 2, 2, 2, 2, 2, 2, 2,
    2, 2, 2, 2, 2, 2, 2, 2, 2, 2, 2, 2, 2, 2, 2, 2,
    2, 2, 2, 2, 2, 2, 2, 2, 2, 2, 2, 2, 2, 2, 2, 2,
    2, 2, 2, 2, 2, 2, 2, 2, 2, 2, 2, 2, 2, 2, 2, 2,
    2, 2, 2, 2, 2, 2, 2, 2, 2, 2, 2, 2, 2, 2, 2, 2].getD b.toNat 0

/-- The loop of `check_ascii`; `none` at a byte that is in no text. -/
def asciiLoop : Nat → List UInt8 → Option Nat
  | res, [] => some res
  | res, b :: buf => if textChars b = 0 then none else asciiLoop (res ||| textChars b) buf

/-- `check_ascii`: `CI_ASCII_DATA`, `CI_ISO8859_DATA` or `CI_XASCII_DATA`. -/
def checkAscii (buf : List UInt8) : Int :=
  match asciiLoop 0 buf with
  | none => -1
  | some res => if res ≤ 1 then 0 else if res ≤ 3 then 1 else 2

/-- The length of a character by its first byte, with the bits of its number. -/
def utf8Lead (b : UInt8) : Nat × Nat :=
  if b &&& 0xE0 = 0xC0 then (2, (b &&& 0x1F).toNat)
  else if b &&& 0xF0 = 0xE0 then (3, (b &&& 0x0F).toNat)
  else if b &&& 0xF8 = 0xF0 then (4, (b &&& 0x07).toNat)
  else if b &&& 0xFC = 0xF8 then (5, (b &&& 0x03).toNat)
  else if b &&& 0xFE = 0xFC then (6, (b &&& 0x01).toNat)
  else (0, 0)

/-- The bytes behind the first one. -/
def utf8Tail : Nat → List UInt8 → Option Nat
  | ucs, [] => some ucs
  | ucs, b :: rest =>
    if b &&& 0xC0 ≠ 0x80 then none else utf8Tail (ucs <<< 6 ||| (b &&& 0x3F).toNat) rest

/-- `utf_boundaries` -/
def utfBoundaries : List Nat := [0x0, 0x0, 0x07F, 0x7FF, 0xFFFF, 0x1FFFFF, 0x3FFFFFF]

/-- `isUTF8` -/
def isUTF8 (c : List UInt8) : Int :=
  if textChars (c.headD 0) = 1 then 1
  else
    let (rSize, lead) := utf8Lead (c.headD 0)
    if rSize = 0 then 0
    else
      match utf8Tail lead ((c.drop 1).take (rSize - 1)) with
      | none => 0
      | some ucs =>
        if c.length < rSize then -1
        else if ucs ≤ utfBoundaries.getD rSize 0 then 0
        else if (0xd800 ≤ ucs ∧ ucs ≤ 0xdfff) ∨ ucs = 0xfffe ∨ ucs = 0xffff then 0
        else rSize

/-- The loop over the characters: the last result of `isUTF8`, and where the loop has ended. -/
def utf8Loop : Nat → Nat → Int → List UInt8 → Int × Nat
  | 0, i, ret, _ => (ret, i)
  | fuel + 1, i, ret, rest =>
    if rest = [] then (ret, i)
    else if isUTF8 rest ≤ 0 then (isUTF8 rest, i)
    else utf8Loop fuel (i + (isUTF8 rest).toNat) (isUTF8 rest) (rest.drop (isUTF8 rest).toNat)

/-- A pair of bytes that is no ASCII character outside of texts; `endian` is big endian. -/
def utf16Pair (endian : Bool) (a b : UInt8) : Bool :=
  if endian then !(a == 0 && b < 128 && textChars b != 1)
  else !(b == 0 && a < 128 && textChars a != 1)

/-- The loop over the pairs of bytes. The second byte of a last pair may be past the data. -/
def utf16Loop (endian : Bool) : List UInt8 → Option Bool
  | [] => some true
  | [a] => if endian && a != 0 then some true else none
  | a :: b :: rest => if utf16Pair endian a b then utf16Loop endian rest else some false

/-- `check_unicode` -/
def checkUnicode (buf : List UInt8) : Option Int :=
  let (ret, i) := utf8Loop buf.length 0 0 buf
  let ret := if ret < 0 ∧ i = 0 then 0 else ret
  if ret ≠ 0 then some 3
  else if buf.length < 2 then some (-1)
  else if buf.take 2 = [0xff, 0xfe] then
    (utf16Loop false (buf.drop 2)).map (fun ok => if ok then 3 else -1)
  else if buf.take 2 = [0xfe, 0xff] then
    (utf16Loop true (buf.drop 2)).map (fun ok => if ok then 3 else -1)
  else some (-1)

/-! ## The type -/

namespace MagicsDb

/-- `ci_magics_db_data_type` from a place of the list of records on. -/
def dataTypeFrom (db : MagicsDb) (buf : List UInt8) (magics : List Magic) : Option Int :=
  match db.checkMagics buf magics with
  | none => none
  | some ret =>
    if ret ≥ 0 then some ret
    else if checkAscii buf ≥ 0 then some (checkAscii buf)
    else (checkUnicode buf).map (fun ret => if ret ≥ 0 then 3 else 5)

/-- `ci_magics_db_data_type` -/
def dataType (db : MagicsDb) (buf : List UInt8) : Option Int :=
  if buf.length = 0 then some (-1) else db.dataTypeFrom buf db.magics

end MagicsDb

end CIcap
