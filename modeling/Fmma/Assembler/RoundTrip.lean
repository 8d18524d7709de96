import Fmma.Assembler.Encoding

/-!
# The instruction format, both ways

An instruction whose operands are in range is encoded into a word, which is decoded into the
instruction again. A word that is decoded into an instruction is the encoding of it, apart from the
bits 31 to 16, which only an I-type reads.
-/

namespace Fmma

/-- An immediate of 24 bits. -/
abbrev Immediate := { imm : ℤ // 0 ≤ imm ∧ imm ≤ 0xFFFFFF }

/-- A displacement of 8 bits. -/
abbrev Displacement := { disp : ℤ // -128 ≤ disp ∧ disp ≤ 127 }

/-- An instruction, as the encoders take it. -/
inductive Instr
  | rtype (op : AluOp) (rd rs : RegId)
  | itype (op : AluOp) (rd : RegId) (imm : Immediate)
  | load (rd ra : RegId)
  | stor (rs ra : RegId)
  | branch (cond : Cond) (disp : Displacement)
  | jump (cond : Cond) (rt : RegId)

namespace Instr

/-- The encoder of each format. -/
def encode : Instr → Except EncodeError Word
  | rtype op rd rs => .ok (encodeRtype op rd rs)
  | itype op rd imm => encodeItype op rd imm
  | load rd ra => .ok (encodeLoad rd ra)
  | stor rs ra => .ok (encodeStor rs ra)
  | branch cond disp => encodeBranch cond disp
  | jump cond rt => .ok (encodeJump cond rt)

/-- The kind and the fields of an instruction, in the decoder's terms. -/
def decoded : Instr → Decoded
  | rtype op rd rs => .rtype (some op) rd rs
  | itype op rd imm => .itype (some op) rd (BitVec.ofInt 32 imm)
  | load rd ra => .load rd ra
  | stor rs ra => .stor rs ra
  | branch cond disp => .branch cond.code disp
  | jump cond rt => .jump cond.code rt

theorem decoded_injective : Function.Injective decoded := by
  intro i j h
  cases i <;> cases j <;> simp only [decoded, reduceCtorEq] at h
  case rtype.rtype | load.load | stor.stor => simpa [decoded] using h
  case itype.itype op rd imm op' rd' imm' =>
    obtain ⟨hop, rfl, himm⟩ := Decoded.itype.inj h
    obtain rfl := Option.some_inj.mp hop
    have hvalue := congrArg BitVec.toNat himm
    rw [BitVec.toNat_ofInt, BitVec.toNat_ofInt] at hvalue
    obtain ⟨v, hv⟩ := imm
    obtain ⟨v', hv'⟩ := imm'
    obtain rfl : v = v' := by
      simp only at hvalue
      omega
    rfl
  case branch.branch cond disp cond' disp' =>
    obtain ⟨hcond, hdisp⟩ := Decoded.branch.inj h
    obtain rfl := Option.some_inj.mp
      ((condByCode_code cond).symm.trans (hcond ▸ condByCode_code cond'))
    rw [Subtype.ext hdisp]
  case jump.jump cond rt cond' rt' =>
    obtain ⟨hcond, rfl⟩ := Decoded.jump.inj h
    obtain rfl := Option.some_inj.mp
      ((condByCode_code cond).symm.trans (hcond ▸ condByCode_code cond'))
    rfl

/-- **Decoding inverts encoding.** -/
theorem decode_encode {i : Instr} {w : Word} (h : i.encode = .ok w) : decode w = i.decoded := by
  cases i with
  | rtype op rd rs => exact Except.ok.inj h ▸ decode_encodeRtype op rd rs
  | itype op rd imm => exact decode_encodeItype h
  | load rd ra => exact Except.ok.inj h ▸ decode_encodeLoad rd ra
  | stor rs ra => exact Except.ok.inj h ▸ decode_encodeStor rs ra
  | branch cond disp => exact decode_encodeBranch h
  | jump cond rt => exact Except.ok.inj h ▸ decode_encodeJump cond rt

/-- Operands in range are encoded. -/
theorem exists_encode (i : Instr) : ∃ w, i.encode = .ok w := by
  cases i with
  | itype op rd imm => exact ⟨_, encodeItype_eq imm.2⟩
  | branch cond disp => exact ⟨_, encodeBranch_eq disp.2⟩
  | _ => exact ⟨_, rfl⟩

/-- The word of an instruction is no halt. -/
theorem encode_ne_zero {i : Instr} {w : Word} (h : i.encode = .ok w) : w ≠ 0 := by
  rintro rfl
  have hhalt := decode_encode h
  rw [decode_zero] at hhalt
  cases i <;> cases hhalt

end Instr

/-- A defined instruction, with an opcode or a condition of the tables. -/
def Decoded.Known : Decoded → Prop
  | .rtype op _ _ | .itype op _ _ => op.isSome
  | .load _ _ | .stor _ _ => True
  | .branch cond _ | .jump cond _ => (condByCode cond).isSome
  | .halt | .undefined => False

theorem Instr.known_decoded (i : Instr) : i.decoded.Known := by
  cases i with
  | branch cond disp | jump cond rt => exact congrArg Option.isSome (condByCode_code cond)
  | rtype op rd rs | itype op rd imm => rfl
  | load rd ra | stor rs ra => trivial

/-- The decoder reads the bits 31 to 16. -/
def Decoded.ReadsUpper : Decoded → Prop
  | .itype .. => True
  | _ => False

section Fields

variable (upper : BitVec 16) (cls rd hi lo : BitVec 4)

/-- The decoder on the fields of a word that is not zero. -/
theorem decode_fields (h : fields upper cls rd (hi ++ lo) ≠ 0) :
    decode (fields upper cls rd (hi ++ lo)) =
      if cls = 4 then
        if hi = 4 then .stor rd lo
        else if hi = 0 then .load rd lo
        else if hi = 12 then .jump rd lo
        else .undefined
      else if cls = 12 then .branch rd (hi ++ lo).toInt
      else if cls = 0 then .rtype (opByCode hi) rd lo
      else .itype (opByCode cls) rd ((upper ++ (hi ++ lo) : BitVec 24).setWidth 32) := by
  rw [decode, if_neg h]
  simp only [extract_cls, extract_rd, extract_hi, extract_lo, extract_upper, extract_low]

theorem immediate_range (imm : BitVec 24) : 0 ≤ (imm.toNat : ℤ) ∧ (imm.toNat : ℤ) ≤ 0xFFFFFF := by
  have := imm.isLt
  omega

theorem byte_range (low : BitVec 8) : -128 ≤ low.toInt ∧ low.toInt ≤ 127 :=
  ⟨BitVec.le_toInt low, Int.le_of_lt_add_one BitVec.toInt_lt⟩

/-- The immediate that the decoder reads is the one that is encoded into its fields. -/
theorem encodeItype_fields (op : AluOp) (low : BitVec 8) :
    BitVec.ofInt 32 (upper ++ low).toNat = (upper ++ low).setWidth 32 ∧
      encodeItype op rd (upper ++ low).toNat = .ok (fields upper op.code rd low) := by
  have hword : BitVec.ofInt 32 (upper ++ low).toNat = (upper ++ low).setWidth 32 := by
    rw [BitVec.ofInt_natCast, BitVec.ofNat_toNat]
  have hupper : ((upper ++ low).setWidth 32).extractLsb' 8 16 = upper := by
    refine BitVec.eq_of_getLsbD_eq ?_
    intro i hi
    simp only [BitVec.getLsbD_extractLsb', BitVec.getLsbD_setWidth, BitVec.getLsbD_append]
    grind
  have hlow : ((upper ++ low).setWidth 32).extractLsb' 0 8 = low := by
    refine BitVec.eq_of_getLsbD_eq ?_
    intro i hi
    simp only [BitVec.getLsbD_extractLsb', BitVec.getLsbD_setWidth, BitVec.getLsbD_append]
    grind
  refine ⟨hword, ?_⟩
  rw [encodeItype_eq (immediate_range (upper ++ low)), hword, hupper, hlow]

/-- The displacement that the decoder reads is the one that is encoded into the low byte. -/
theorem encodeBranch_fields (cond : Cond) (low : BitVec 8) :
    encodeBranch cond low.toInt = .ok (fields 0 12 cond.code low) := by
  have hlow : (BitVec.ofInt 32 low.toInt).extractLsb' 0 8 = low := by
    refine BitVec.eq_of_toNat_eq ?_
    rw [BitVec.extractLsb'_toNat, Nat.shiftRight_zero, BitVec.toNat_ofInt]
    have := low.isLt
    rw [BitVec.toInt_eq_toNat_cond]
    split_ifs <;> omega
  rw [encodeBranch_eq (byte_range low), hlow]

end Fields

/-- **Encoding inverts decoding**, where the bits that are not read are zero. -/
theorem exists_encode_of_known {w : Word} (h : (decode w).Known)
    (hupper : (decode w).ReadsUpper ∨ w.extractLsb' 16 16 = 0) :
    ∃ i : Instr, i.decoded = decode w ∧ i.encode = .ok w := by
  have hne : w ≠ 0 := by
    rintro rfl
    exact h
  obtain ⟨upper, cls, rd, hi, lo, rfl⟩ := exists_fields w
  rw [extract_upper] at hupper
  rw [decode_fields upper cls rd hi lo hne] at h hupper ⊢
  -- one case for each format; only the last one, that of the I-type, reads the upper bits
  split_ifs at h hupper ⊢ with hcls hhi hhi hhi hcls hcls
  · obtain rfl : upper = 0 := hupper.resolve_left id
    rw [hcls, hhi]
    exact ⟨.stor rd lo, rfl, congrArg Except.ok (encodeStor_eq rd lo)⟩
  · obtain rfl : upper = 0 := hupper.resolve_left id
    rw [hcls, hhi]
    exact ⟨.load rd lo, rfl, congrArg Except.ok (encodeLoad_eq rd lo)⟩
  · obtain rfl : upper = 0 := hupper.resolve_left id
    obtain ⟨cond, hcond⟩ := Option.isSome_iff_exists.mp h
    obtain rfl := cond_eq hcond
    rw [hcls, hhi]
    exact ⟨.jump cond lo, rfl, congrArg Except.ok (encodeJump_eq cond lo)⟩
  · exact h.elim
  · obtain rfl : upper = 0 := hupper.resolve_left id
    obtain ⟨cond, hcond⟩ := Option.isSome_iff_exists.mp h
    obtain rfl := cond_eq hcond
    rw [hcls]
    exact ⟨.branch cond ⟨(hi ++ lo).toInt, byte_range (hi ++ lo)⟩, rfl,
      encodeBranch_fields cond (hi ++ lo)⟩
  · obtain rfl : upper = 0 := hupper.resolve_left id
    obtain ⟨op, hop⟩ := Option.isSome_iff_exists.mp h
    rw [hop, opcode_eq hop, hcls]
    exact ⟨.rtype op rd lo, rfl, congrArg Except.ok (encodeRtype_eq op rd lo)⟩
  · obtain ⟨op, hop⟩ := Option.isSome_iff_exists.mp h
    obtain ⟨hvalue, hword⟩ := encodeItype_fields upper rd op (hi ++ lo)
    rw [hop, opcode_eq hop]
    exact ⟨.itype op rd ⟨(upper ++ (hi ++ lo)).toNat, immediate_range _⟩,
      congrArg (Decoded.itype (some op) rd) hvalue, hword⟩

/-- **The format.** Every instruction is encoded, into a word that is no halt, that no other
instruction has, and that is decoded into it; and what is decoded into an instruction is its
encoding. -/
theorem encoding_inverse :
    (∀ i : Instr, ∃ w, i.encode = .ok w ∧ decode w = i.decoded ∧ w ≠ 0) ∧
    (∀ (i j : Instr) (w : Word), i.encode = .ok w → j.encode = .ok w → i = j) ∧
    (∀ w, (decode w).Known → (decode w).ReadsUpper ∨ w.extractLsb' 16 16 = 0 →
      ∃ i : Instr, i.decoded = decode w ∧ i.encode = .ok w) := by
  refine ⟨?_, ?_, fun w => exists_encode_of_known⟩
  · intro i
    obtain ⟨w, hw⟩ := i.exists_encode
    exact ⟨w, hw, Instr.decode_encode hw, Instr.encode_ne_zero hw⟩
  · intro i j w hi hj
    exact Instr.decoded_injective ((Instr.decode_encode hi).symm.trans (Instr.decode_encode hj))

end Fmma
