import IsaCodec.ByteOrder
import IsaCodec.Form

/-! # Bytes

    Unsigned integers in byte strings, and the assembly of a code from the
    bytes of its elements.  Each element is read in the byte order; the
    first element is the most significant part of the code in either order. -/

namespace IsaCodec

/-- An 8-bit byte. -/
abbrev Byte := BitVec 8

/-- Two hexadecimal digits. -/
def Byte.hexDigits (byte : Byte) : List Char :=
  [Nat.digitChar (byte.toNat / 16), Nat.digitChar (byte.toNat % 16)]

/-- The number of bytes with the most significant one first. -/
def bigEndian (bytes : List Byte) : Code :=
  bytes.foldl (fun acc byte => acc <<< 8 ||| byte.setWidth 64) 0

/-- The number of bytes in an order. -/
def ByteOrder.number : ByteOrder → List Byte → Code
  | big, bytes => bigEndian bytes
  | little, bytes => bigEndian bytes.reverse

/-! ## Reading -/

/-- A byte string of which some bytes have been read. -/
structure ByteReader where
  data : List Byte
  offset : Nat

namespace ByteReader

/-- Nothing has been read. -/
def ofBytes (data : List Byte) : ByteReader := ⟨data, 0⟩

/-- The bytes that have not been read. -/
def tail (reader : ByteReader) : List Byte :=
  reader.data.drop reader.offset

/-- Number of bytes that have not been read. -/
def remaining (reader : ByteReader) : Nat :=
  reader.data.length - reader.offset

/-- Skips bytes. -/
def advance (reader : ByteReader) (count : Nat) : ByteReader :=
  { reader with offset := reader.offset + count }

/-- Reads bytes, if there are as many. -/
def read? (reader : ByteReader) (count : Nat) : Option (List Byte × ByteReader) :=
  if reader.remaining < count then none
  else some (reader.tail.take count, reader.advance count)

/-- Reads a number of so many bytes, if there are as many. -/
def number? (reader : ByteReader) (order : ByteOrder) (count : Nat) :
    Option (Code × ByteReader) :=
  (reader.read? count).map fun (bytes, reader) => (order.number bytes, reader)

end ByteReader

/-! ## Assembly -/

/-- Puts an element after the elements of a code.  An element of a word's length takes the place of
    what was there. -/
def appendElement (elementBitLen : Nat) (code element : Code) : Code :=
  if elementBitLen = 64 then element else code <<< (elementBitLen % 64) ||| element

/-- Reads elements and puts them after those of a code. -/
def assembleElements (order : ByteOrder) (elementBitLen : Nat) (code : Code) :
    Nat → ByteReader → Option Code
  | 0, _ => some code
  | count + 1, reader => do
    let (element, reader) ← reader.number? order (elementBitLen / 8)
    assembleElements order elementBitLen (appendElement elementBitLen code element) count reader

/-- The code of a form that the leading bytes hold.  There is none if there
    are too few bytes, or if an element is no whole number of bytes. -/
def assemble (bytes : List Byte) (order : ByteOrder) (form : Form) : Option Code :=
  if form.elementBitLen % 8 ≠ 0 then none
  else assembleElements order form.elementBitLen 0 form.elementCount (.ofBytes bytes)

end IsaCodec
