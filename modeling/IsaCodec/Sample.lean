import IsaCodec.Description.Basic
import IsaCodec.Registry

/-! # Sample instruction sets

    Small parts of three instruction sets, to try the library on. -/

namespace IsaCodec.Sample

/-- An instruction without conditions and extras. -/
def plain (name format : String) : InstructionDescription where
  name
  format
  matchCondition := none
  unmatchCondition := none
  extras := none
  fieldExtras := .empty

/-- An instruction with a match condition. -/
def matching (name format condition : String) : InstructionDescription :=
  { plain name format with matchCondition := some condition }

/-- An instruction with an unmatch condition. -/
def unmatching (name format condition : String) : InstructionDescription :=
  { plain name format with unmatchCondition := some condition }

/-- Extras that say how many clocks an instruction takes. -/
def clocks (n : Int) : Option Value :=
  some (.object [("clocks", .number n)])

/-- A description with a namespace. -/
def describe (byteOrder : ByteOrder) (namespaceName : String)
    (instructions : List InstructionDescription) : Description where
  machine := ⟨byteOrder, none⟩
  instructions
  decoder := some ⟨some namespaceName⟩
  extras := none

/-- A subset of ARM A32 instructions, big-endian. -/
def arm : Description :=
  describe .big "arm" [
    { unmatching "add_1" "xxxx:cond|0010100|x:S|xxxx:Rn|xxxx:Rd|xxxxxxxxxxxx:imm12" "cond == 15" with
      extras := clocks 1
      fieldExtras := Dictionary.empty.insert "imm12" (.string "modified_immediate") },
    { matching "push_1" "xxxx:cond|100100101101|xxxxxxxxxxxxxxxx:register_list"
        "cond in_range 0-14 and setbit_count(register_list) > 1" with
      extras := clocks 2 },
    unmatching "push_2" "xxxx:cond|010100101101|xxxx:Rt|000000000100" "cond == 15",
    unmatching "b_1" "xxxx:cond|1010|xxxxxxxxxxxxxxxxxxxxxxxx:imm24" "cond == 15",
    unmatching "mov_1" "xxxx:cond|0011101|x:S|0000|xxxx:Rd|xxxxxxxxxxxx:imm12" "cond == 15",
    unmatching "nop_1" "xxxx:cond|0011001000001111000000000000" "cond == 15"]

/-- A subset of ARM Thumb instructions with encodings of one and of two
    16-bit elements, big-endian. -/
def thumb : Description :=
  describe .big "thumb" [
    unmatching "add_1"
      "11110|x:imm12[11]|01000|x:S|xxxx:Rn,0|xxx:imm12[10:8]|xxxx:Rd|xxxxxxxx:imm12[7:0]"
      "Rd == 15 and S == 1 or Rn == 13",
    matching "push_1" "1110100100101101,0|x:M|0|xxxxxxxxxxxxx:register_list"
      "setbit_count(register_list[1]) > 0 or M[1] == 1",
    matching "push_2" "1011010|x:M|xxxxxxxx:register_list" "M == 1 or register_list != 0",
    plain "mov_1" "00100|xxx:Rd|xxxxxxxx:imm8"]

/-- A subset of RISC-V compressed instructions, little-endian. -/
def riscvCompressed : Description :=
  describe .little "riscv" [
    matching "c_addi4spn" "000|xxxxxxxx:nzuimm[5:4,9:6,2,3]|xxx:rd|00" "nzuimm != 0",
    plain "c_nop" "000|0|00000|00000|01",
    unmatching "c_addi" "000:funct3|x:imm[5]|xxxxx:rs1_rd|xxxxx:imm[4:0]|01:op" "rs1_rd == 0",
    unmatching "c_li" "010|x:imm[5]|xxxxx:rd|xxxxx:imm[4:0]|01" "rd == 0",
    plain "c_sd" "111|xxx:uimm[5:3]|xxx:rs1|xx:uimm[7:6]|xxx:rs2|00"]

/-- Number of bits that are set. -/
def setBitCount (word : Code) : Code :=
  word.cpop

/-- The functions that the conditions of the samples call. -/
def registry : Registry :=
  Dictionary.empty.insert "setbit_count" fun argument _ => setBitCount argument

end IsaCodec.Sample
