import Mathlib.Data.BitVec
import Mathlib.Tactic.Common

/-!
# The instruction set

`fmma_isa.py`, the description of the ISA that the assembler and the instruction set
simulator share: the ALU opcodes, the condition codes FSMTrial decodes, the encoders and
the decoder. Words are 32-bit vectors, register numbers and condition codes are the
four-bit fields they are encoded in, and the shared RAM has 1024 words.

The decoder's display text is left out: no other function reads it.
-/

namespace Fmma

/-- A machine word. -/
abbrev Word := BitVec 32

/-- A word index into the shared RAM (`ADDR_BITS = 10`, `MEM_WORDS = 1024`). -/
abbrev Addr := BitVec 10

/-- Membership in a list of addresses can be decided. -/
instance Addr.lawfulBEq : LawfulBEq Addr := inferInstance

/-- A register number, `R0` to `R15`. -/
abbrev RegId := BitVec 4

/-! ### ALU opcodes -/

/-- The mnemonics of `ALU_OPCODES`. -/
inductive AluOp
  | AND | OR | XOR | ADD | ADDU | ADDC | LSH | SUB | SUBC | CMP | ASH | MUL | MOV
  deriving DecidableEq, Repr

/-- `ALU_OPCODES`: the 4-bit opcode decoded by ALUFinal. -/
def AluOp.code : AluOp → BitVec 4
  | .AND => 0x1
  | .OR => 0x2
  | .XOR => 0x3
  | .ADD => 0x5
  | .ADDU => 0x6
  | .ADDC => 0x7
  | .LSH => 0x8
  | .SUB => 0x9
  | .SUBC => 0xA
  | .CMP => 0xB
  | .ASH => 0xD
  | .MUL => 0xE
  | .MOV => 0xF

/-- `_OP_BY_CODE.get`: the mnemonic of an opcode. `none` stands for the placeholder text
`"?X"` the decoder makes up for an opcode that is not in the table. -/
def opByCode (c : BitVec 4) : Option AluOp :=
  match c.toNat with
  | 0x1 => some .AND
  | 0x2 => some .OR
  | 0x3 => some .XOR
  | 0x5 => some .ADD
  | 0x6 => some .ADDU
  | 0x7 => some .ADDC
  | 0x8 => some .LSH
  | 0x9 => some .SUB
  | 0xA => some .SUBC
  | 0xB => some .CMP
  | 0xD => some .ASH
  | 0xE => some .MUL
  | 0xF => some .MOV
  | _ => none

/-- The table of mnemonics inverts the table of opcodes. -/
@[simp]
theorem opByCode_code (op : AluOp) : opByCode op.code = some op := by
  cases op <;> rfl

/-- An opcode of the table is that of its mnemonic. -/
theorem opcode_eq {opcode : BitVec 4} {op : AluOp} (h : opByCode opcode = some op) :
    opcode = op.code := by
  refine BitVec.eq_of_toNat_eq ?_
  rw [opByCode] at h
  split at h
  case h_14 => cases h
  all_goals
    next hcode =>
      obtain rfl := Option.some_inj.mp h
      exact hcode

/-- `WRITES_RESULT`: every operation but `CMP` writes a result back into `Rd`. The placeholder
of an unknown opcode is not in the set either. -/
def writesResult : Option AluOp → Bool
  | some .CMP => false
  | some _ => true
  | none => false

/-! ### Condition codes -/

/-- The keys of `CONDITIONS`, the conditions FSMTrial decodes. -/
inductive Cond
  | EQ | NE | LT | GE | LE | UC
  deriving DecidableEq, Repr

/-- The 4-bit code of a condition. -/
def Cond.code : Cond → BitVec 4
  | .EQ => 0b0000
  | .NE => 0b0001
  | .LT => 0b0110
  | .GE => 0b0111
  | .LE => 0b1101
  | .UC => 0b1110

/-- `_Cond.taken`, on the `Z` and `N` flags as they are after a `CMP`. -/
def Cond.taken : Cond → Bool → Bool → Bool
  | .EQ, z, _ => z
  | .NE, z, _ => !z
  | .LT, _, n => n
  | .GE, z, n => z || !n
  | .LE, z, n => z || n
  | .UC, _, _ => true

/-- `_COND_BY_CODE.get`. -/
def condByCode (c : BitVec 4) : Option Cond :=
  match c.toNat with
  | 0b0000 => some .EQ
  | 0b0001 => some .NE
  | 0b0110 => some .LT
  | 0b0111 => some .GE
  | 0b1101 => some .LE
  | 0b1110 => some .UC
  | _ => none

@[simp]
theorem condByCode_code (c : Cond) : condByCode c.code = some c := by
  cases c <;> rfl

/-- A code of the table is that of its condition. -/
theorem cond_eq {c : BitVec 4} {cond : Cond} (h : condByCode c = some cond) : c = cond.code := by
  refine BitVec.eq_of_toNat_eq ?_
  rw [condByCode] at h
  split at h
  case h_7 => cases h
  all_goals
    next hcode =>
      obtain rfl := Option.some_inj.mp h
      exact hcode

/-- Whether a branch or jump with condition field `c` is taken: an unimplemented code is
never taken. -/
def condTaken (c : BitVec 4) (z n : Bool) : Bool :=
  match condByCode c with
  | some cond => cond.taken z n
  | none => false

/-! ### Encoders -/

/-- The encoders' `ValueError`s. Register numbers and conditions are in range by their
types. -/
inductive EncodeError
  | immediate (imm : Int)
  | displacement (disp : Int)
  deriving DecidableEq, Repr

/-- `encode_rtype`: `OP Rd, Rs`. -/
def encodeRtype (op : AluOp) (rd rs : RegId) : Word :=
  (rd.setWidth 32 <<< 8) ||| (op.code.setWidth 32 <<< 4) ||| rs.setWidth 32

/-- `encode_itype`: `OP Rd, #imm`, the 24-bit immediate split around the opcode. -/
def encodeItype (op : AluOp) (rd : RegId) (imm : Int) : Except EncodeError Word :=
  if 0 ≤ imm ∧ imm ≤ 0xFFFFFF then
    let upper := BitVec.ofInt 32 imm >>> 8 &&& 0xFFFF
    let lower := BitVec.ofInt 32 imm &&& 0xFF
    .ok ((upper <<< 16) ||| (op.code.setWidth 32 <<< 12) ||| (rd.setWidth 32 <<< 8) ||| lower)
  else .error (.immediate imm)

/-- `encode_load`: `LOAD Rd, Ra`. -/
def encodeLoad (rd ra : RegId) : Word :=
  (0b0100 <<< 12) ||| (rd.setWidth 32 <<< 8) ||| (0b0000 <<< 4) ||| ra.setWidth 32

/-- `encode_stor`: `STOR Rs, Ra`. -/
def encodeStor (rs ra : RegId) : Word :=
  (0b0100 <<< 12) ||| (rs.setWidth 32 <<< 8) ||| (0b0100 <<< 4) ||| ra.setWidth 32

/-- `encode_branch`: `Bcc disp`, relative to the branch itself. -/
def encodeBranch (cond : Cond) (disp : Int) : Except EncodeError Word :=
  if -128 ≤ disp ∧ disp ≤ 127 then
    .ok ((0b1100 <<< 12) ||| (cond.code.setWidth 32 <<< 8) ||| (BitVec.ofInt 32 disp &&& 0xFF))
  else .error (.displacement disp)

/-- `encode_jump`: `Jcc Rt`. -/
def encodeJump (cond : Cond) (rt : RegId) : Word :=
  (0b0100 <<< 12) ||| (cond.code.setWidth 32 <<< 8) ||| (0b1100 <<< 4) ||| rt.setWidth 32

/-! ### Decoder -/

/-- The result of decoding one word: the `kind` of `Decoded` with the fields that kind
sets. -/
inductive Decoded
  | halt
  | rtype (op : Option AluOp) (rd rs : RegId)
  | itype (op : Option AluOp) (rd : RegId) (imm : Word)
  | load (rd ra : RegId)
  | stor (rs ra : RegId)
  | branch (cond : BitVec 4) (disp : Int)
  | jump (cond : BitVec 4) (rt : RegId)
  | undefined
  deriving DecidableEq, Repr

/-- `decode`: one machine word, the way FSMTrial decodes it. -/
def decode (word : Word) : Decoded :=
  if word = 0 then .halt
  else
    let cls := word.extractLsb' 12 4
    let rd := word.extractLsb' 8 4
    if cls = 0b0100 then
      let sub := word.extractLsb' 4 4
      if sub = 0b0100 then .stor rd (word.extractLsb' 0 4)
      else if sub = 0b0000 then .load rd (word.extractLsb' 0 4)
      else if sub = 0b1100 then .jump rd (word.extractLsb' 0 4)
      else .undefined
    else if cls = 0b1100 then .branch rd (word.extractLsb' 0 8).toInt
    else if cls = 0b0000 then
      .rtype (opByCode (word.extractLsb' 4 4)) rd (word.extractLsb' 0 4)
    else
      .itype (opByCode cls) rd
        ((word.extractLsb' 16 16 ++ word.extractLsb' 0 8 : BitVec 24).setWidth 32)

@[simp]
theorem decode_zero : decode 0 = .halt := rfl

/-- Only the zero word decodes to a halt. -/
theorem decode_eq_halt_iff {word : Word} : decode word = .halt ↔ word = 0 := by
  refine ⟨fun h => ?_, fun h => h ▸ rfl⟩
  by_contra hne
  simp only [decode, if_neg hne] at h
  split_ifs at h

end Fmma
