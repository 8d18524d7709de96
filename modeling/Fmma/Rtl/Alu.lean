import Fmma.Lib.Carry
import Fmma.Sim

/-!
# The ALU in hardware

`ALUFinal`, and its agreement with the simulator's transcription of it.
-/

namespace Fmma

/-- `ALUFinal`: the result `C` and the `Flags`, which are zero where an operation leaves them. -/
def aluFinal (opcode : BitVec 4) (a b : Word) (cin : Bool) : Word × Flags :=
  match opcode.toNat with
  | 0x6 =>
      -- `{Flags[3], C} = A + B`
      let sum := a.setWidth 33 + b.setWidth 33
      let c := sum.setWidth 32
      (c, ⟨c == 0, sum.getLsbD 32, false, false, false⟩)
  | 0x5 =>
      let c := a + b
      (c, ⟨c == 0, false, (!a.msb && !b.msb && c.msb) || (a.msb && b.msb && !c.msb), false, c.msb⟩)
  | 0x7 =>
      let sum := a.setWidth 33 + b.setWidth 33 + (BitVec.ofBool cin).setWidth 33
      let c := sum.setWidth 32
      let bcin := b + (BitVec.ofBool cin).setWidth 32
      (c, ⟨c == 0, sum.getLsbD 32,
        (!a.msb && !bcin.msb && c.msb) || (a.msb && bcin.msb && !c.msb), false, c.msb⟩)
  | 0x9 =>
      let c := a - b
      (c, ⟨c == 0, !decide (a < b), (a.msb ^^ b.msb) && (a.msb ^^ c.msb), decide (a < b), c.msb⟩)
  | 0xA =>
      let bcin := b + (BitVec.ofBool (!cin)).setWidth 32
      let c := a - bcin
      (c, ⟨c == 0, !decide (a < bcin), (a.msb ^^ bcin.msb) && (a.msb ^^ c.msb),
        decide (a < bcin), c.msb⟩)
  | 0xB => (0, ⟨a == b, false, false, decide (a < b), a.slt b⟩)
  | 0x1 => (a &&& b, .clear)
  | 0x2 => (a ||| b, .clear)
  | 0x3 => (a ^^^ b, .clear)
  | 0x8 =>
      let shift := ~~~b.setWidth 5 + 1
      (if b.getLsbD 4 = false then a <<< b.setWidth 5 else a >>> shift, .clear)
  | 0xD =>
      let shift := ~~~b.setWidth 5 + 1
      (if b.getLsbD 4 = false then a <<< b.setWidth 5 else a.sshiftRight' shift, .clear)
  | 0xE => (a * b, .clear)
  | 0xF => (b, .clear)
  | _ => (0, .clear)

/-- The carry out of a sum of 32-bit operands is the bit above them. -/
theorem getLsbD_carry (x : BitVec 33) : x.getLsbD 32 = decide (0xFFFFFFFF < x.toNat) := by
  have hmsb : x.getLsbD 32 = x.msb := BitVec.msb_eq_getLsbD_last x |>.symm
  rw [hmsb, BitVec.msb_eq_decide]
  exact decide_eq_decide.mpr (by omega)

section

variable (a b : Word) (cin : Bool)

theorem aluFinal_addu : aluFinal AluOp.ADDU.code a b cin = alu (some .ADDU) a b cin := by
  have hsum : (a.setWidth 33 + b.setWidth 33).setWidth 32 = a + b := by
    refine BitVec.eq_of_toNat_eq ?_
    simp only [BitVec.toNat_setWidth, BitVec.toNat_add]
    omega
  have hcarry : (a.setWidth 33 + b.setWidth 33).getLsbD 32 =
      decide (0xFFFFFFFF < a.toNat + b.toNat) := by
    rw [getLsbD_carry]
    simp only [BitVec.toNat_setWidth, BitVec.toNat_add]
    exact decide_eq_decide.mpr (by omega)
  simp only [aluFinal, alu, hsum, hcarry]
  rfl

theorem aluFinal_addc : aluFinal AluOp.ADDC.code a b cin = alu (some .ADDC) a b cin := by
  have hcin : cin.toNat < 2 := cin.toNat_lt
  have hsum : (a.setWidth 33 + b.setWidth 33 + (BitVec.ofBool cin).setWidth 33).setWidth 32 =
      BitVec.ofNat 32 (a.toNat + b.toNat + cin.toNat) := by
    refine BitVec.eq_of_toNat_eq ?_
    rw [BitVec.toNat_setWidth, BitVec.toNat_add, Carry.toNat_setWidth_ofBool (by decide)]
    simp only [BitVec.toNat_setWidth, BitVec.toNat_add, BitVec.toNat_ofNat]
    omega
  have hcarry : (a.setWidth 33 + b.setWidth 33 + (BitVec.ofBool cin).setWidth 33).getLsbD 32 =
      decide (0xFFFFFFFF < a.toNat + b.toNat + cin.toNat) := by
    rw [getLsbD_carry, BitVec.toNat_add, Carry.toNat_setWidth_ofBool (by decide)]
    simp only [BitVec.toNat_setWidth, BitVec.toNat_add]
    exact decide_eq_decide.mpr (by omega)
  have hbcin : b + (BitVec.ofBool cin).setWidth 32 = BitVec.ofNat 32 (b.toNat + cin.toNat) := by
    refine BitVec.eq_of_toNat_eq ?_
    rw [BitVec.toNat_add, Carry.toNat_setWidth_ofBool (by decide), BitVec.toNat_ofNat]
  simp only [aluFinal, alu, hsum, hcarry, hbcin]
  rfl

theorem aluFinal_subc : aluFinal AluOp.SUBC.code a b cin = alu (some .SUBC) a b cin := by
  have hbcin : b + (BitVec.ofBool (!cin)).setWidth 32 =
      BitVec.ofNat 32 (b.toNat + (1 - cin.toNat)) := by
    refine BitVec.eq_of_toNat_eq ?_
    rw [BitVec.toNat_add, Carry.toNat_setWidth_ofBool (by decide), BitVec.toNat_ofNat]
    cases cin <;> rfl
  simp only [aluFinal, alu, hbcin]
  rfl

theorem getLsbD_four : b.getLsbD 4 = decide (16 ≤ b.toNat % 32) := by
  rw [← BitVec.testBit_toNat, Nat.testBit_eq_decide_div_mod_eq]
  exact decide_eq_decide.mpr (by omega)

variable {b}

/-- A shift to the left. -/
theorem shiftAmount_of_left (h : b.getLsbD 4 = false) : shiftAmount b = (b.setWidth 5).toNat := by
  rw [getLsbD_four, decide_eq_false_iff_not] at h
  rw [shiftAmount, if_pos (by omega), BitVec.toNat_setWidth]
  rfl

/-- A shift to the right. -/
theorem shiftAmount_of_right (h : b.getLsbD 4 = true) :
    shiftAmount b = -((~~~b.setWidth 5 + 1).toNat : Int) ∧ shiftAmount b < 0 := by
  rw [getLsbD_four, decide_eq_true_eq] at h
  have hneg : (~~~b.setWidth 5 + 1).toNat = 32 - b.toNat % 32 := by
    have hone : (1 : BitVec 5).toNat = 1 := rfl
    rw [BitVec.toNat_add, BitVec.toNat_not, BitVec.toNat_setWidth, hone]
    omega
  rw [shiftAmount, if_neg (by omega), hneg]
  omega

variable (b)

/-- The signed shift count decides between the two directions as its top bit does. -/
theorem shift_eq {γ : Type*} (left right : ℕ → γ) :
    (if b.getLsbD 4 = false then left (b.setWidth 5).toNat
      else right (~~~b.setWidth 5 + 1).toNat) =
    if 0 ≤ shiftAmount b then left (shiftAmount b).toNat else right (-shiftAmount b).toNat := by
  cases hb : b.getLsbD 4 with
  | false =>
    rw [if_pos rfl, shiftAmount_of_left hb, if_pos (Int.natCast_nonneg _), Int.toNat_natCast]
  | true =>
    obtain ⟨hamount, hlt⟩ := shiftAmount_of_right hb
    rw [if_neg Bool.false_ne_true.symm, if_neg (not_le.mpr hlt), hamount, neg_neg,
      Int.toNat_natCast]

theorem aluFinal_lsh : aluFinal AluOp.LSH.code a b cin = alu (some .LSH) a b cin := by
  have harm : aluFinal AluOp.LSH.code a b cin = (if b.getLsbD 4 = false then a <<< b.setWidth 5
    else a >>> (~~~b.setWidth 5 + 1), .clear) := rfl
  rw [harm, alu, ← shift_eq b (fun n => (a <<< n, Flags.clear)) fun n => (a >>> n, .clear)]
  split_ifs <;> rfl

theorem aluFinal_ash : aluFinal AluOp.ASH.code a b cin = alu (some .ASH) a b cin := by
  have harm : aluFinal AluOp.ASH.code a b cin = (if b.getLsbD 4 = false then a <<< b.setWidth 5
    else a.sshiftRight' (~~~b.setWidth 5 + 1), .clear) := rfl
  rw [harm, alu, ← shift_eq b (fun n => (a <<< n, Flags.clear)) fun n => (a.sshiftRight n, .clear)]
  split_ifs <;> rfl

/-- The operations of the simulator's ALU are those of the hardware, for every carry in. -/
theorem aluFinal_code (op : AluOp) : aluFinal op.code a b cin = alu (some op) a b cin := by
  cases op with
  | ADDU => exact aluFinal_addu a b cin
  | ADDC => exact aluFinal_addc a b cin
  | SUBC => exact aluFinal_subc a b cin
  | LSH => exact aluFinal_lsh a b cin
  | ASH => exact aluFinal_ash a b cin
  | AND | OR | XOR | ADD | SUB | CMP | MUL | MOV => rfl

/-- **The simulator's ALU is the hardware's**: an opcode that is in no table falls through to the
default arm. -/
theorem aluFinal_eq (opcode : BitVec 4) :
    aluFinal opcode a b cin = alu (opByCode opcode) a b cin := by
  cases hop : opByCode opcode with
  | some op => rw [opcode_eq hop, aluFinal_code]
  | none =>
    rw [aluFinal]
    split
    case h_14 => rfl
    all_goals
      next hcode =>
        rw [opByCode, hcode] at hop
        cases hop

end

end Fmma
