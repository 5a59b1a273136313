import CIcap.Chunk.Decode
import CIcap.Config.Lines
import CIcap.Lib.Scan

/-! # The magic database

`filetype.c` detects the type of data by the records of a file of magics. A line of the file is

    offset : bytes : type : description : groups

with escapes in the bytes; a line that ends with a backslash behind the bytes gives one more block to
the record, which the next line goes on with. This file models the loader: `parse_record` for a line
and `ci_magics_db_file_add` for a file. Of a type the name is kept, its place in the table is what is
detected; descriptions and groups are read over. Memory is never refused.
-/

namespace CIcap

open CText Scan

/-- `MAGIC_SIZE` -/
def magicSize : Nat := 64

/-- `NAME_SIZE` -/
def nameSize : Nat := 31

/-- `MAX_MAGIC_BLOCKS` -/
def maxMagicBlocks : Nat := 64

/-- `RECORD_LINE` -/
def recordLine : Nat := 32768

/-- `struct ci_magic_block` -/
structure MagicBlock where
  offset : Int
  magic : List UInt8
deriving DecidableEq, Repr

/-- `struct ci_magic` -/
structure Magic where
  type : Nat
  blocks : List MagicBlock
deriving DecidableEq, Repr

/-- `struct ci_magics_db`: the names of the types and the records. -/
structure MagicsDb where
  types : List (List UInt8)
  magics : List Magic
deriving DecidableEq, Repr

/-- `struct ci_magic_record` -/
structure MagicRecord where
  blocks : List MagicBlock
  type : List UInt8
deriving DecidableEq, Repr

def MagicRecord.empty : MagicRecord := ⟨[], []⟩

/-! ## Lines -/

/-- The byte of an escape, from the digits behind it. -/
def escapeByte (base : Nat) (num : List UInt8) : Option UInt8 :=
  match strtol base (num ++ [0]) with
  | none => none
  | some (c, _) => if c > 256 ∨ c < 0 then none else some c.toNat.toUInt8

/-- The bytes of a block, at most as many as there is room for, and the text behind them; `none` for
a bad escape. An `\xh` at the end of the line takes the end of the line as a digit, behind which the
record fails. -/
def magicBytes : Nat → List UInt8 → Option (List UInt8 × List UInt8)
  | 0, s => some ([], s)
  | _ + 1, [] => some ([], [])
  | room + 1, b :: s =>
    if b = 58 then some ([], b :: s)
    else if b = 92 then
      match s with
      | 120 :: h :: l :: rest =>
        (escapeByte 16 [h, l]).bind fun c =>
          (magicBytes room rest).map fun r => (c :: r.1, r.2)
      | 120 :: _ => none
      | x :: y :: z :: rest =>
        (escapeByte 8 [x, y, z]).bind fun c =>
          (magicBytes room rest).map fun r => (c :: r.1, r.2)
      | _ => none
    else (magicBytes room s).map fun r => (b :: r.1, r.2)

/-- Whether `strtol` sets `errno` to `ERANGE`. -/
def strtolRange (base : Nat) (s : List UInt8) : Bool :=
  match skipWhile isSpace s with
  | none => false
  | some s =>
    match takeDigits base 0 false (takeHexPrefix base (takeSign s).2) with
    | some (n, true, _) => if (takeSign s).1 then 2 ^ 63 < n else 2 ^ 63 ≤ n
    | _ => false

/-- The text behind the bytes: the type, when the record ends with this line. -/
def parseTail (s : List UInt8) (record : MagicRecord) : Int × MagicRecord :=
  let s := s.dropWhile isSpace
  if s.headD 0 ≠ 58 then (-1, record)
  else
    let s := s.drop 1
    if s = [92] then (0, record)
    else if ¬ s.contains 58 then (-1, record)
    else
      let type := (trim isSpace (s.takeWhile (· != 58))).take nameSize
      let s := (s.dropWhile (· != 58)).drop 1
      if ¬ s.contains 58 then (-1, { record with type }) else (1, { record with type })

/-- `parse_record` -/
def parseRecord (line : List UInt8) (record : MagicRecord) : Int × MagicRecord :=
  if line = [] then (0, record)
  else if line.headD 0 = 35 then (0, record)
  else if record.blocks.length = maxMagicBlocks then (-1, record)
  else
    match strtol 10 (line ++ [0]) with
    | none => (-1, record)
    | some (offset, e) =>
      let e := e.dropLast.dropWhile isSpace
      if e.headD 0 ≠ 58 ∨ strtolRange 10 (line ++ [0]) then (-1, record)
      else
        match magicBytes magicSize (e.drop 1) with
        | none => (-1, record)
        | some (magic, s) =>
          parseTail s { record with blocks := record.blocks ++ [⟨toInt32 offset, magic⟩] }

/-! ## Files -/

namespace MagicsDb

/-- The types that `ci_magics_db_init` copies. -/
def predefinedTypes : List (List UInt8) :=
  [bytes "ASCII", bytes "ISO-8859", bytes "EXT-ASCII", bytes "UTF", bytes "HTML", bytes "BINARY"]

/-- `ci_magics_db_init` -/
def init : MagicsDb := ⟨predefinedTypes, []⟩

/-- `ci_get_data_type_id` -/
def getDataTypeId (db : MagicsDb) (name : List UInt8) : Option Nat :=
  db.types.findIdx? (fun t => name.map lower == t.map lower)

/-- A record is added with its type, which is added when there is none of its name. -/
def addRecord (db : MagicsDb) (record : MagicRecord) : MagicsDb :=
  match db.getDataTypeId record.type with
  | some type => { db with magics := db.magics ++ [⟨type, record.blocks⟩] }
  | none =>
    { types := db.types ++ [record.type],
      magics := db.magics ++ [⟨db.types.length, record.blocks⟩] }

/-- The loop of `ci_magics_db_file_add` over the lines of a file. Each line takes a byte off the
file, whose length is enough fuel. -/
def addLines : Nat → List UInt8 → MagicRecord → MagicsDb → Bool × MagicsDb
  | 0, _, _, db => (true, db)
  | fuel + 1, file, record, db =>
    let data := (ConfFile.fgets (recordLine - 1) file).1
    let rest := (ConfFile.fgets (recordLine - 1) file).2.rest
    if data = [] then (true, db)
    else
      let (ret, record) := parseRecord (trim isSpace (cstr data)) record
      if ret = 0 then addLines fuel rest record db
      else if ret < 0 then (false, db)
      else addLines fuel rest MagicRecord.empty (db.addRecord record)

/-- `ci_magics_db_file_add` -/
def fileAdd (db : MagicsDb) (file : List UInt8) : Bool × MagicsDb :=
  addLines (file.length + 1) file MagicRecord.empty db

/-- `ci_magics_db_build`, with the files that are added later. -/
def build (files : List (List UInt8)) : MagicsDb :=
  files.foldl (fun db file => (db.fileAdd file).2) init

end MagicsDb

end CIcap
