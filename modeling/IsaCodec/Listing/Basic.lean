import IsaCodec.Bytes

/-! # Listings

    A listing says what decoding has to give, line by line:

        # comment, may contain flags: +little
        1000: e9 2d 48 00     push_1 cond=0xe register_list=0x4800
              ea000010        b_1 cond=0xe imm24=0x10

    An entry has an optional address before a colon, bytes in groups of
    hexadecimal digits, at least two blanks, and the expected text.  An entry
    without an address is at the end of the one before it. -/

namespace IsaCodec.Listing

/-- One line of a listing. -/
structure Entry where
  /-- Number of the line, counted from one. -/
  line : Nat
  /-- What follows the first `#`, trimmed. -/
  comment : String
  address : Nat
  bytes : List Byte
  /-- What decoding has to give, trimmed. -/
  expected : String
  deriving DecidableEq

/-- Why a line is no entry. -/
inductive Fault where
  /-- A group of digits does not divide into bytes. -/
  | oddDigits (digits : String)
  | invalidAddress (text : String)
  | noBytes
  deriving DecidableEq

/-- Wording of the fault. -/
def Fault.message : Fault → String
  | oddDigits digits => "odd number of hex digits \"" ++ digits ++ "\""
  | invalidAddress text => "invalid address \"" ++ text ++ "\""
  | noBytes => "no instruction bytes"

/-- A fault and the line that has it. -/
structure Error where
  line : Nat
  fault : Fault
  deriving DecidableEq

/-- Wording of the error for a listing from a file. -/
def Error.message (file : String) (error : Error) : String :=
  "error: " ++ error.fault.message ++ ", " ++ file ++ ":" ++ toString error.line

end IsaCodec.Listing
