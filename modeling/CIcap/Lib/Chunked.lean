import CIcap.Lib.CText

/-! # The chunked coding

A body is sent as a list of chunks: a size line in hexadecimal, the data and a line end. The
list is closed by a last-chunk line that the user of this file chooses (`last` below, any
byte string). `Pos` says where a reader stands in such a stream; `Pos.bytes` are the bytes
still to come and `Pos.left` the data among them.
-/

namespace Chunked

open CText

/-- One chunk: the text of its size line and its data. The size may be written with leading
zeros and in either case. -/
structure Chunk where
  size : List UInt8
  data : List UInt8
  size_digits : AllDigits 16 size
  size_value : digitsValue 16 size = data.length
  data_ne : data ≠ []

namespace Chunk

theorem size_ne (c : Chunk) : c.size ≠ [] := by
  intro h
  have hv := c.size_value
  rw [h] at hv
  exact c.data_ne (List.length_eq_zero_iff.mp hv.symm)

theorem data_pos (c : Chunk) : 0 < c.data.length := List.length_pos_iff.mpr c.data_ne

theorem cr_not_mem_size (c : Chunk) : (13 : UInt8) ∉ c.size := fun h =>
  (not_space_of_digit (c.size_digits 13 h) (by omega)).2.2.2 rfl

def enc (c : Chunk) : List UInt8 := c.size ++ crlf ++ c.data ++ crlf

/-- The chunk with its size written by `%x`. -/
def ofData (d : List UInt8) (hd : d ≠ []) : Chunk where
  size := natText 16 d.length
  data := d
  size_digits := natText_allDigits (by omega) (by omega) _
  size_value := digitsValue_natText (by omega) (by omega) _
  data_ne := hd

end Chunk

def body (cs : List Chunk) : List UInt8 := cs.flatMap Chunk.data

def enc (cs : List Chunk) : List UInt8 := cs.flatMap Chunk.enc

@[simp] theorem body_nil : body [] = [] := rfl

@[simp] theorem body_cons (c : Chunk) (cs : List Chunk) : body (c :: cs) = c.data ++ body cs := rfl

@[simp] theorem enc_nil : enc [] = [] := rfl

theorem body_append (cs ds : List Chunk) : body (cs ++ ds) = body cs ++ body ds := by
  simp [body]

theorem eq_nil_of_body_eq_nil {cs : List Chunk} (h : body cs = []) : cs = [] := by
  cases cs with
  | nil => rfl
  | cons c cs =>
    rw [body_cons, List.append_eq_nil_iff] at h
    exact absurd h.1 c.data_ne

/-! ## Positions of a reader -/

/-- Where a reader stands: before a size line (of the first chunk of `cs`, or of the last
chunk when `cs` is empty), inside a chunk with the data `d` and its line end to come, between
the `\r` and the `\n` that end a chunk, or behind the last chunk. -/
inductive Pos where
  | line (cs : List Chunk)
  | data (d : List UInt8) (cs : List Chunk)
  | lf (cs : List Chunk)
  | finished

namespace Pos

/-- The bytes to come when the stream is closed by `last`. -/
def bytes (last : List UInt8) : Pos → List UInt8
  | line cs => enc cs ++ last
  | data d cs => d ++ crlf ++ enc cs ++ last
  | lf cs => 10 :: (enc cs ++ last)
  | finished => []

/-- The data to come. -/
def left : Pos → List UInt8
  | line cs => body cs
  | data d cs => d ++ body cs
  | lf cs => body cs
  | finished => []

/-- The chunks of which no byte has been read. -/
def chunks : Pos → List Chunk
  | line cs => cs
  | data _ cs => cs
  | lf cs => cs
  | finished => []

theorem bytes_ne_nil {last : List UInt8} (hlast : last ≠ []) {p : Pos} (hp : p ≠ finished) :
    p.bytes last ≠ [] := by
  cases p with
  | line cs => simp [bytes, hlast]
  | data d cs => simp [bytes, crlf]
  | lf cs => simp [bytes]
  | finished => exact absurd rfl hp

end Pos

end Chunked
