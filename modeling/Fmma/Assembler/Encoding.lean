import Fmma.Isa

/-!
# Encoding and decoding

Every encoder packs the same four fields: the upper half of an immediate, two nibbles and the low
byte. What `decode` makes of them is read off once, and then of each instruction.
-/

namespace Fmma

/-- The fields of a word: the upper immediate, the class, the destination and the low byte. -/
def fields (upper : BitVec 16) (cls rd : BitVec 4) (low : BitVec 8) : Word :=
  upper ++ cls ++ rd ++ low

section Fields

variable (upper : BitVec 16) (cls rd : BitVec 4) (low : BitVec 8)

theorem pack_fields :
    (upper.setWidth 32 <<< 16) ||| (cls.setWidth 32 <<< 12) ||| (rd.setWidth 32 <<< 8) |||
      low.setWidth 32 = fields upper cls rd low := by
  refine BitVec.eq_of_getLsbD_eq ?_
  intro i hi
  simp only [fields, BitVec.getLsbD_append, BitVec.getLsbD_or, BitVec.getLsbD_shiftLeft,
    BitVec.getLsbD_setWidth]
  grind

/-- An instruction whose low byte is two nibbles. -/
theorem pack_nibbles (hi lo : BitVec 4) :
    (cls.setWidth 32 <<< 12) ||| (rd.setWidth 32 <<< 8) ||| (hi.setWidth 32 <<< 4) |||
      lo.setWidth 32 = fields 0 cls rd (hi ++ lo) := by
  refine BitVec.eq_of_getLsbD_eq ?_
  intro i hi'
  simp only [fields, BitVec.getLsbD_append, BitVec.getLsbD_or, BitVec.getLsbD_shiftLeft,
    BitVec.getLsbD_setWidth]
  grind

theorem extract_upper : (fields upper cls rd low).extractLsb' 16 16 = upper := by
  refine BitVec.eq_of_getLsbD_eq ?_
  intro i hi
  simp only [fields, BitVec.getLsbD_append, BitVec.getLsbD_extractLsb']
  grind

theorem extract_cls : (fields upper cls rd low).extractLsb' 12 4 = cls := by
  refine BitVec.eq_of_getLsbD_eq ?_
  intro i hi
  simp only [fields, BitVec.getLsbD_append, BitVec.getLsbD_extractLsb']
  grind

theorem extract_rd : (fields upper cls rd low).extractLsb' 8 4 = rd := by
  refine BitVec.eq_of_getLsbD_eq ?_
  intro i hi
  simp only [fields, BitVec.getLsbD_append, BitVec.getLsbD_extractLsb']
  grind

theorem extract_low : (fields upper cls rd low).extractLsb' 0 8 = low := by
  refine BitVec.eq_of_getLsbD_eq ?_
  intro i hi
  simp only [fields, BitVec.getLsbD_append, BitVec.getLsbD_extractLsb']
  grind

theorem extract_hi (hi lo : BitVec 4) :
    (fields upper cls rd (hi ++ lo)).extractLsb' 4 4 = hi := by
  refine BitVec.eq_of_getLsbD_eq ?_
  intro i hi'
  simp only [fields, BitVec.getLsbD_append, BitVec.getLsbD_extractLsb']
  grind

theorem extract_lo (hi lo : BitVec 4) :
    (fields upper cls rd (hi ++ lo)).extractLsb' 0 4 = lo := by
  refine BitVec.eq_of_getLsbD_eq ?_
  intro i hi'
  simp only [fields, BitVec.getLsbD_append, BitVec.getLsbD_extractLsb']
  grind

end Fields

/-- A word with a class is no halt. -/
theorem fields_ne_zero {upper : BitVec 16} {cls rd : BitVec 4} {low : BitVec 8} (h : cls ≠ 0) :
    fields upper cls rd low ≠ 0 := by
  intro hz
  have hcls := extract_cls upper cls rd low
  rw [hz] at hcls
  exact h hcls.symm

/-- An R-type word with an opcode is no halt. -/
theorem nibbles_ne_zero {cls rd hi lo : BitVec 4} (h : hi ≠ 0) :
    fields 0 cls rd (hi ++ lo) ≠ 0 := by
  intro hz
  have hhi := extract_hi 0 cls rd hi lo
  rw [hz] at hhi
  exact h hhi.symm

theorem and_low_byte (x : Word) : x &&& 0xFF = (x.extractLsb' 0 8).setWidth 32 := by
  refine BitVec.eq_of_toNat_eq ?_
  have hmask : (0xFF : Word).toNat = 2 ^ 8 - 1 := rfl
  rw [BitVec.toNat_and, hmask, Nat.and_two_pow_sub_one_eq_mod, BitVec.toNat_setWidth,
    BitVec.extractLsb'_toNat, Nat.shiftRight_zero]
  omega

theorem and_upper_half (x : Word) : x >>> 8 &&& 0xFFFF = (x.extractLsb' 8 16).setWidth 32 := by
  refine BitVec.eq_of_toNat_eq ?_
  have hmask : (0xFFFF : Word).toNat = 2 ^ 16 - 1 := rfl
  rw [BitVec.toNat_and, hmask, Nat.and_two_pow_sub_one_eq_mod, BitVec.toNat_setWidth,
    BitVec.extractLsb'_toNat, BitVec.toNat_ushiftRight]
  omega

/-- Every word is packed of its fields. -/
theorem exists_fields (w : Word) : ∃ (upper : BitVec 16) (cls rd hi lo : BitVec 4),
    w = fields upper cls rd (hi ++ lo) := by
  refine ⟨w.extractLsb' 16 16, w.extractLsb' 12 4, w.extractLsb' 8 4, w.extractLsb' 4 4,
    w.extractLsb' 0 4, ?_⟩
  refine BitVec.eq_of_getLsbD_eq ?_
  intro i hi
  simp only [fields, BitVec.getLsbD_append, BitVec.getLsbD_extractLsb']
  grind

/-! ### Instructions -/

theorem code_ne_zero (op : AluOp) : op.code ≠ 0 := by
  cases op <;> decide

theorem encodeRtype_eq (op : AluOp) (rd rs : RegId) :
    encodeRtype op rd rs = fields 0 0 rd (op.code ++ rs) := by
  rw [← pack_nibbles]
  simp [encodeRtype]

theorem encodeLoad_eq (rd ra : RegId) : encodeLoad rd ra = fields 0 4 rd (0#4 ++ ra) := by
  rw [← pack_nibbles]
  simp [encodeLoad]

theorem encodeStor_eq (rs ra : RegId) : encodeStor rs ra = fields 0 4 rs (4#4 ++ ra) := by
  rw [← pack_nibbles]
  simp [encodeStor]

theorem encodeJump_eq (cond : Cond) (rt : RegId) :
    encodeJump cond rt = fields 0 4 cond.code (12#4 ++ rt) := by
  rw [← pack_nibbles]
  simp [encodeJump]

theorem encodeBranch_eq {cond : Cond} {disp : Int} (h : -128 ≤ disp ∧ disp ≤ 127) :
    encodeBranch cond disp =
      .ok (fields 0 12 cond.code ((BitVec.ofInt 32 disp).extractLsb' 0 8)) := by
  rw [encodeBranch, if_pos h, ← pack_fields, and_low_byte]
  simp

theorem encodeItype_eq {op : AluOp} {rd : RegId} {imm : Int} (h : 0 ≤ imm ∧ imm ≤ 0xFFFFFF) :
    encodeItype op rd imm = .ok (fields ((BitVec.ofInt 32 imm).extractLsb' 8 16) op.code rd
      ((BitVec.ofInt 32 imm).extractLsb' 0 8)) := by
  rw [encodeItype, if_pos h, ← pack_fields, and_low_byte, and_upper_half]

theorem decode_encodeRtype (op : AluOp) (rd rs : RegId) :
    decode (encodeRtype op rd rs) = .rtype (some op) rd rs := by
  rw [encodeRtype_eq, decode, if_neg (nibbles_ne_zero (code_ne_zero op))]
  simp only [extract_cls, extract_rd, extract_hi, extract_lo, opByCode_code]
  rfl

theorem decode_encodeLoad (rd ra : RegId) : decode (encodeLoad rd ra) = .load rd ra := by
  rw [encodeLoad_eq, decode, if_neg (fields_ne_zero (by decide))]
  simp only [extract_cls, extract_rd, extract_hi, extract_lo]
  rfl

theorem decode_encodeStor (rs ra : RegId) : decode (encodeStor rs ra) = .stor rs ra := by
  rw [encodeStor_eq, decode, if_neg (fields_ne_zero (by decide))]
  simp only [extract_cls, extract_rd, extract_hi, extract_lo]
  rfl

theorem decode_encodeJump (cond : Cond) (rt : RegId) :
    decode (encodeJump cond rt) = .jump cond.code rt := by
  rw [encodeJump_eq, decode, if_neg (fields_ne_zero (by decide))]
  simp only [extract_cls, extract_rd, extract_hi, extract_lo]
  rfl

theorem decode_encodeBranch {cond : Cond} {disp : Int} {w : Word}
    (h : encodeBranch cond disp = .ok w) : decode w = .branch cond.code disp := by
  have hdisp : -128 ≤ disp ∧ disp ≤ 127 := by
    by_contra hc
    rw [encodeBranch, if_neg hc] at h
    cases h
  have hw := Except.ok.inj ((encodeBranch_eq hdisp).symm.trans h)
  have hlow : ((BitVec.ofInt 32 disp).extractLsb' 0 8).toInt = disp := by
    have hbyte : (BitVec.ofInt 32 disp).extractLsb' 0 8 = BitVec.ofInt 8 disp := by
      refine BitVec.eq_of_toNat_eq ?_
      rw [BitVec.extractLsb'_toNat, Nat.shiftRight_zero, BitVec.toNat_ofInt, BitVec.toNat_ofInt]
      omega
    rw [hbyte, BitVec.toInt_ofInt]
    exact Int.bmod_eq_of_le (by omega) (by omega)
  rw [← hw, decode, if_neg (fields_ne_zero (by decide))]
  simp only [extract_cls, extract_rd, extract_low, hlow]
  rfl

theorem decode_encodeItype {op : AluOp} {rd : RegId} {imm : Int} {w : Word}
    (h : encodeItype op rd imm = .ok w) :
    decode w = .itype (some op) rd (BitVec.ofInt 32 imm) := by
  have himm : 0 ≤ imm ∧ imm ≤ 0xFFFFFF := by
    by_contra hc
    rw [encodeItype, if_neg hc] at h
    cases h
  have hw := Except.ok.inj ((encodeItype_eq himm).symm.trans h)
  have hvalue : ((BitVec.ofInt 32 imm).extractLsb' 8 16 ++ (BitVec.ofInt 32 imm).extractLsb' 0 8 :
      BitVec 24).setWidth 32 = BitVec.ofInt 32 imm := by
    have hlt : (BitVec.ofInt 32 imm).toNat < 2 ^ 24 := by
      rw [BitVec.toNat_ofInt]
      omega
    refine BitVec.eq_of_getLsbD_eq ?_
    intro i hi
    have htop : 24 ≤ i → (BitVec.ofInt 32 imm).getLsbD i = false := by
      intro hle
      rw [← BitVec.testBit_toNat]
      exact Nat.testBit_lt_two_pow (hlt.trans_le (Nat.pow_le_pow_right (by decide) hle))
    simp only [BitVec.getLsbD_setWidth, BitVec.getLsbD_append, BitVec.getLsbD_extractLsb']
    by_cases hlow : i < 24
    · grind
    · rw [htop (not_lt.mp hlow)]
      grind
  rw [← hw, decode, if_neg (fields_ne_zero (code_ne_zero op))]
  simp only [extract_cls, extract_rd, extract_upper, extract_low, hvalue, opByCode_code]
  cases op <;> rfl

end Fmma
