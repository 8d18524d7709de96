import Fmma.Rtl.Alu
import Mathlib.Data.Nat.Bitwise

/-!
# The simulator's ALU on Python's integers

`alu` of `fmma_sim.py` as it is written: the operands are integers, which are masked to 32 bits
where the source masks them, and a flag is 0 or 1. The golden reference computes on words; here the
two are shown to be the same, and with it `fmma_sim.alu` and `ALUFinal`.

An operation is a mnemonic of the table, or `none` for any other text. `legacy_shifts` is left out.
-/

namespace Fmma

/-- `_u32`. -/
def u32 (v : ℤ) : ℕ := (v % 2 ^ 32).toNat

/-- `_s32`. -/
def s32 (v : ℤ) : ℤ :=
  let v := u32 v
  if v &&& 0x80000000 ≠ 0 then v - 2 ^ 32 else v

/-- The sign bit, `(v >> 31) & 1`. -/
def bit31 (v : ℕ) : ℕ := v >>> 31 &&& 1

/-- `Flags` of the simulator: integers, 0 at first. -/
structure FlagInts where
  z : ℕ := 0
  c : ℕ := 0
  f : ℕ := 0
  l : ℕ := 0
  n : ℕ := 0
  deriving DecidableEq

/-- `alu`. -/
def pyAlu (op : Option AluOp) (a b cin : ℤ) : ℕ × FlagInts :=
  let a := u32 a
  let b := u32 b
  match op with
  | some .AND => (a &&& b, {})
  | some .OR => (a ||| b, {})
  | some .XOR => (a ^^^ b, {})
  | some .MOV => (b, {})
  | some .MUL => (u32 (a * b), {})
  | some .ADDU =>
    let total : ℤ := a + b
    let res := u32 total
    (res, { c := if 0xFFFFFFFF < total then 1 else 0
            z := if res = 0 then 1 else 0 })
  | some .ADD =>
    let res := u32 (a + b)
    let sa := bit31 a
    let sb := bit31 b
    let sr := bit31 res
    (res, { z := if res = 0 then 1 else 0
            f := if (sa = 0 ∧ sb = 0 ∧ sr ≠ 0) ∨ (sa ≠ 0 ∧ sb ≠ 0 ∧ sr = 0) then 1 else 0
            n := sr })
  | some .ADDC =>
    let total : ℤ := a + b + cin % 2
    let res := u32 total
    let bcin := u32 (b + cin % 2)
    let sa := bit31 a
    let sb := bit31 bcin
    let sr := bit31 res
    (res, { c := if 0xFFFFFFFF < total then 1 else 0
            z := if res = 0 then 1 else 0
            f := if (sa = 0 ∧ sb = 0 ∧ sr ≠ 0) ∨ (sa ≠ 0 ∧ sb ≠ 0 ∧ sr = 0) then 1 else 0
            n := sr })
  | some .SUB =>
    let res := u32 (a - b)
    let sa := bit31 a
    let sb := bit31 b
    let sr := bit31 res
    (res, { z := if res = 0 then 1 else 0
            c := if a < b then 0 else 1
            f := if sa ^^^ sb ≠ 0 ∧ sa ^^^ sr ≠ 0 then 1 else 0
            l := if a < b then 1 else 0
            n := sr })
  | some .SUBC =>
    let bcin := u32 (b + (1 - cin % 2))
    let res := u32 (a - bcin)
    let sa := bit31 a
    let sb := bit31 bcin
    let sr := bit31 res
    (res, { z := if res = 0 then 1 else 0
            c := if a < bcin then 0 else 1
            f := if sa ^^^ sb ≠ 0 ∧ sa ^^^ sr ≠ 0 then 1 else 0
            l := if a < bcin then 1 else 0
            n := sr })
  | some .CMP =>
    (0, { z := if a = b then 1 else 0
          n := if s32 a < s32 b then 1 else 0
          l := if a < b then 1 else 0 })
  | some .LSH =>
    let sa5 := b &&& 0x1F
    let amount : ℤ := if sa5 &&& 0x10 ≠ 0 then sa5 - 32 else sa5
    if 0 ≤ amount then (u32 (a <<< amount.toNat : ℕ), {})
    else (u32 (a >>> (-amount).toNat : ℕ), {})
  | some .ASH =>
    let sa5 := b &&& 0x1F
    let amount : ℤ := if sa5 &&& 0x10 ≠ 0 then sa5 - 32 else sa5
    if 0 ≤ amount then (u32 (a <<< amount.toNat : ℕ), {})
    else (u32 (s32 a >>> (-amount).toNat), {})
  | none => (0, {})

/-- The flags as the simulator has them. -/
def Flags.toInts (f : Flags) : FlagInts where
  z := f.z.toNat
  c := f.c.toNat
  f := f.f.toNat
  l := f.l.toNat
  n := f.n.toNat

/-- What an ALU on words answers, in integers. -/
def answerInts (r : Word × Flags) : ℕ × FlagInts := (r.1.toNat, r.2.toInts)

variable (a b : Word) (cin : Bool)

/-! ### Masks -/

theorem u32_eq (v : ℤ) : u32 v = (BitVec.ofInt 32 v).toNat := by
  rw [BitVec.toNat_ofInt]
  rfl

@[simp]
theorem u32_natCast (n : ℕ) : u32 n = n % 2 ^ 32 := by
  rw [u32]
  omega

theorem u32_toNat : u32 a.toNat = a.toNat := by
  rw [u32_natCast, Nat.mod_eq_of_lt a.isLt]

theorem bit31_toNat : bit31 a.toNat = a.msb.toNat := by
  rw [bit31, Nat.and_one_is_mod, Nat.shiftRight_eq_div_pow, BitVec.msb_eq_decide]
  have := a.isLt
  by_cases h : 2 ^ (32 - 1) ≤ a.toNat
  · rw [decide_eq_true h, Bool.toNat_true]
    omega
  · rw [decide_eq_false h, Bool.toNat_false]
    omega

theorem s32_toNat : s32 a.toNat = a.toInt := by
  have hsign : a.toNat &&& 0x80000000 = a.msb.toNat * 2 ^ 31 := by
    rw [BitVec.msb_eq_getLsbD_last, ← BitVec.testBit_toNat]
    exact Nat.and_two_pow a.toNat 31
  simp only [s32, u32_toNat, hsign, BitVec.toInt_eq_msb_cond]
  cases a.msb <;> simp

/-- The signed shift count, from the masks. -/
theorem amount_eq : (if b.toNat &&& 0x1F &&& 0x10 ≠ 0 then ((b.toNat &&& 0x1F : ℕ) : ℤ) - 32
    else ((b.toNat &&& 0x1F : ℕ) : ℤ)) = shiftAmount b := by
  have hlow : b.toNat &&& 0x1F = b.toNat % 32 := Nat.and_two_pow_sub_one_eq_mod b.toNat 5
  have hsign : b.toNat % 32 &&& 0x10 = ((b.toNat % 32).testBit 4).toNat * 2 ^ 4 :=
    Nat.and_two_pow (b.toNat % 32) 4
  have hbit : (b.toNat % 32).testBit 4 = decide (16 ≤ b.toNat % 32) := by
    rw [Nat.testBit_eq_decide_div_mod_eq]
    exact decide_eq_decide.mpr (by omega)
  rw [hlow, hsign, hbit, shiftAmount]
  by_cases h : 16 ≤ b.toNat % 32
  · simp [h, not_lt.mpr h]
  · simp [h, not_le.mp h]

/-! ### Flags -/

theorem flag_eq (p : Prop) [Decidable p] : (if p then 1 else 0) = (decide p).toNat := by
  by_cases h : p
  · rw [if_pos h, decide_eq_true h, Bool.toNat_true]
  · rw [if_neg h, decide_eq_false h, Bool.toNat_false]

theorem noFlag_eq (p : Prop) [Decidable p] : (if p then 0 else 1) = (!decide p).toNat := by
  by_cases h : p
  · rw [if_pos h, decide_eq_true h, Bool.not_true, Bool.toNat_false]
  · rw [if_neg h, decide_eq_false h, Bool.not_false, Bool.toNat_true]

theorem zero_eq (res : Word) : decide (res.toNat = 0) = (res == 0) := by
  rw [Bool.eq_iff_iff, decide_eq_true_eq, beq_iff_eq, ← BitVec.toNat_inj]
  rfl

theorem overflow_add (res : Word) :
    decide ((a.msb.toNat = 0 ∧ b.msb.toNat = 0 ∧ res.msb.toNat ≠ 0) ∨
      (a.msb.toNat ≠ 0 ∧ b.msb.toNat ≠ 0 ∧ res.msb.toNat = 0)) = addOverflow a b res := by
  rw [addOverflow]
  cases a.msb <;> cases b.msb <;> cases res.msb <;> rfl

theorem overflow_sub (res : Word) :
    decide (a.msb.toNat ^^^ b.msb.toNat ≠ 0 ∧ a.msb.toNat ^^^ res.msb.toNat ≠ 0) =
      subOverflow a b res := by
  rw [subOverflow]
  cases a.msb <;> cases b.msb <;> cases res.msb <;> rfl

/-! ### Operations -/

theorem u32_natCast_add (m n : ℕ) : u32 (m + n) = (BitVec.ofNat 32 (m + n)).toNat := by
  rw [← Nat.cast_add, u32_natCast, BitVec.toNat_ofNat]

theorem u32_add : u32 (a.toNat + b.toNat) = (a + b).toNat := by
  rw [u32_natCast_add, BitVec.toNat_ofNat, BitVec.toNat_add]

theorem u32_sub : u32 (a.toNat - b.toNat) = (a - b).toNat := by
  rw [u32, BitVec.toNat_sub]
  have := b.isLt
  omega

theorem u32_mul : u32 (a.toNat * b.toNat) = (a * b).toNat := by
  rw [← Nat.cast_mul, u32_natCast, BitVec.toNat_mul]

theorem cin_mod : (cin.toNat : ℤ) % 2 = cin.toNat := by
  cases cin <;> rfl

theorem pyAlu_addu : pyAlu (some .ADDU) a.toNat b.toNat cin.toNat =
    answerInts (alu (some .ADDU) a b cin) := by
  have hcarry : decide ((0xFFFFFFFF : ℤ) < a.toNat + b.toNat) =
      decide (0xFFFFFFFF < a.toNat + b.toNat) := decide_eq_decide.mpr (by omega)
  simp only [pyAlu, u32_toNat, u32_add, flag_eq, hcarry, zero_eq]
  rfl

theorem pyAlu_add : pyAlu (some .ADD) a.toNat b.toNat cin.toNat =
    answerInts (alu (some .ADD) a b cin) := by
  simp only [pyAlu, u32_toNat, u32_add, flag_eq, zero_eq, bit31_toNat, overflow_add]
  rfl

theorem pyAlu_addc : pyAlu (some .ADDC) a.toNat b.toNat cin.toNat =
    answerInts (alu (some .ADDC) a b cin) := by
  have hres : u32 (a.toNat + b.toNat + cin.toNat) =
      (BitVec.ofNat 32 (a.toNat + b.toNat + cin.toNat)).toNat := by
    rw [← Nat.cast_add, u32_natCast_add]
  have hcarry : decide ((0xFFFFFFFF : ℤ) < a.toNat + b.toNat + cin.toNat) =
      decide (0xFFFFFFFF < a.toNat + b.toNat + cin.toNat) := decide_eq_decide.mpr (by omega)
  -- the overflow is that of `a` and of `b` with the carry
  simp only [pyAlu, u32_toNat, cin_mod, hres, u32_natCast_add b.toNat, flag_eq, hcarry, zero_eq,
    bit31_toNat, overflow_add]
  rfl

theorem pyAlu_sub : pyAlu (some .SUB) a.toNat b.toNat cin.toNat =
    answerInts (alu (some .SUB) a b cin) := by
  simp only [pyAlu, u32_toNat, u32_sub, flag_eq, noFlag_eq, zero_eq, bit31_toNat,
    overflow_sub]
  rfl

theorem pyAlu_subc : pyAlu (some .SUBC) a.toNat b.toNat cin.toNat =
    answerInts (alu (some .SUBC) a b cin) := by
  have hbcin : u32 (b.toNat + (1 - cin.toNat)) =
      (BitVec.ofNat 32 (b.toNat + (1 - cin.toNat))).toNat := by
    rw [← u32_natCast_add, Nat.cast_sub cin.toNat_le, Nat.cast_one]
  simp only [pyAlu, u32_toNat, cin_mod, hbcin, u32_sub, flag_eq, noFlag_eq, zero_eq, bit31_toNat,
    overflow_sub]
  rfl

theorem pyAlu_cmp : pyAlu (some .CMP) a.toNat b.toNat cin.toNat =
    answerInts (alu (some .CMP) a b cin) := by
  have hzero : decide (a.toNat = b.toNat) = (a == b) := by
    rw [Bool.eq_iff_iff, decide_eq_true_eq, beq_iff_eq, BitVec.toNat_inj]
  simp only [pyAlu, u32_toNat, s32_toNat, flag_eq, hzero]
  rfl

/-- A shift to the left. -/
theorem u32_shiftLeft (n : ℕ) : u32 ((a.toNat <<< n : ℕ) : ℤ) = (a <<< n).toNat := by
  rw [u32_natCast, BitVec.toNat_shiftLeft]

theorem pyAlu_lsh : pyAlu (some .LSH) a.toNat b.toNat cin.toNat =
    answerInts (alu (some .LSH) a b cin) := by
  have hright (n : ℕ) : u32 ((a.toNat >>> n : ℕ) : ℤ) = (a >>> n).toNat := by
    rw [← BitVec.toNat_ushiftRight, u32_toNat]
  -- both shift to the right by what the amount is below zero
  simp only [pyAlu, u32_toNat, amount_eq, alu, u32_shiftLeft, hright]
  split_ifs <;> rfl

theorem pyAlu_ash : pyAlu (some .ASH) a.toNat b.toNat cin.toNat =
    answerInts (alu (some .ASH) a b cin) := by
  have hright (n : ℕ) : u32 (a.toInt >>> n) = (a.sshiftRight n).toNat := by
    rw [u32_eq, ← BitVec.toInt_sshiftRight, BitVec.ofInt_toInt]
  simp only [pyAlu, u32_toNat, s32_toNat, amount_eq, alu, u32_shiftLeft, hright]
  split_ifs <;> rfl

/-- **The transcription on words is the source's ALU.** -/
theorem pyAlu_eq (op : Option AluOp) :
    pyAlu op a.toNat b.toNat cin.toNat = answerInts (alu op a b cin) := by
  cases op with
  | none => rfl
  | some op =>
    cases op with
    | ADDU => exact pyAlu_addu a b cin
    | ADD => exact pyAlu_add a b cin
    | ADDC => exact pyAlu_addc a b cin
    | SUB => exact pyAlu_sub a b cin
    | SUBC => exact pyAlu_subc a b cin
    | CMP => exact pyAlu_cmp a b cin
    | LSH => exact pyAlu_lsh a b cin
    | ASH => exact pyAlu_ash a b cin
    | MUL =>
      simp only [pyAlu, u32_toNat, u32_mul]
      rfl
    | AND | OR | XOR | MOV =>
      simp only [pyAlu, u32_toNat]
      rfl

/-- **The simulator's ALU is the hardware's**, for every opcode, with the mnemonic of the table or,
where it has none, an unknown one. -/
theorem pyAlu_eq_aluFinal (opcode : BitVec 4) :
    pyAlu (opByCode opcode) a.toNat b.toNat cin.toNat =
      ((aluFinal opcode a b cin).1.toNat, (aluFinal opcode a b cin).2.toInts) := by
  rw [pyAlu_eq, ← aluFinal_eq]
  rfl

end Fmma
