import Fmma.Rtl.Execute

/-!
# What the flags mean

The flags of `ALUFinal` against the arithmetic they stand for: the exact sums and differences, and
the comparisons that the conditions are named after.
-/

namespace Fmma

/-- The operations that set flags. -/
def AluOp.setsFlags : AluOp → Bool
  | .ADD | .ADDU | .ADDC | .SUB | .SUBC | .CMP => true
  | .AND | .OR | .XOR | .LSH | .ASH | .MUL | .MOV => false

/-- The exact value that an operation stands for. -/
def AluOp.exactValue (op : AluOp) (x y : Int) (cin : Bool) : Int :=
  match op with
  | .ADDC => x + y + cin.toNat
  | .SUB | .CMP => x - y
  | .SUBC => x - y - (1 - cin.toNat)
  | _ => x + y

/-- The signed comparison that a condition stands for. -/
def Cond.Compares (cond : Cond) (x y : Int) : Prop :=
  match cond with
  | .EQ => x = y
  | .NE => x ≠ y
  | .LT => x < y
  | .GE => y ≤ x
  | .LE => x ≤ y
  | .UC => True

/-- The flags of an operation mean what the reference says. -/
structure FlagsMean (op : AluOp) (a b : Word) (cin : Bool) (result : Word) (flags : Flags) :
    Prop where
  zero : flags.z = true ↔ if op = .CMP then a = b else result = 0
  carry : op = .ADDU ∨ op = .ADDC →
    (flags.c = true ↔ 2 ^ 32 ≤ op.exactValue a.toNat b.toNat cin)
  borrow : op = .SUB ∨ op = .SUBC → (flags.c = true ↔ 0 ≤ op.exactValue a.toNat b.toNat cin)
  overflow : op = .ADD ∨ op = .ADDC ∨ op = .SUB ∨ op = .SUBC →
    (flags.f = true ↔ op.exactValue a.toInt b.toInt cin ∉ Set.Ico (-2 ^ 31) (2 ^ 31))
  less : op = .CMP → (flags.n = true ↔ a.toInt < b.toInt) ∧ (flags.l = true ↔ a.toNat < b.toNat)
  conditions : op = .CMP → ∀ cond : Cond,
    Fsm.condition cond.code flags = true ↔ cond.Compares a.toInt b.toInt

/-- The carry in that is added to the second operand does not carry into its sign, nor out of it
where a borrow is to be told. -/
def CarryFits (op : AluOp) (b : Word) (cin : Bool) : Prop :=
  (op = .ADDC → ¬(cin = true ∧ b = BitVec.intMax 32)) ∧
  (op = .SUBC → ¬(cin = false ∧ (b = BitVec.intMax 32 ∨ b = BitVec.allOnes 32)))

section

variable (a b : Word) (cin : Bool)

/-! ### The flags of each operation -/

/-- The overflow of a sum, as the operand signs and the sign of the sum tell it. -/
theorem saddOverflow_msb : ((!a.msb && !b.msb && (a + b).msb) || (a.msb && b.msb && !(a + b).msb)) =
    a.saddOverflow b := by
  rw [BitVec.saddOverflow_eq]
  cases a.msb <;> cases b.msb <;> cases (a + b).msb <;> rfl

/-- The overflow of a difference. -/
theorem ssubOverflow_msb : ((a.msb ^^ b.msb) && (a.msb ^^ (a - b).msb)) = a.ssubOverflow b := by
  rw [BitVec.ssubOverflow_eq]
  cases a.msb <;> cases b.msb <;> cases (a - b).msb <;> rfl

/-- The conditions that are decoded from the flags of `CMP`. -/
theorem condition_compares (flags : Flags) (hz : flags.z = true ↔ a = b)
    (hn : flags.n = true ↔ a.toInt < b.toInt) (cond : Cond) :
    Fsm.condition cond.code flags = true ↔ cond.Compares a.toInt b.toInt := by
  rw [← BitVec.toInt_inj] at hz
  have hnz : flags.z = false ↔ ¬a.toInt = b.toInt := by rw [← hz, Bool.not_eq_true]
  have hnn : flags.n = false ↔ ¬a.toInt < b.toInt := by rw [← hn, Bool.not_eq_true]
  rw [Fsm.condition_eq, condTaken, condByCode_code]
  cases cond <;>
    simp only [Cond.taken, Cond.Compares, Bool.not_eq_true', Bool.or_eq_true, hz, hn, hnz, hnn] <;>
    omega

theorem zero_flag {op : AluOp} (hop : op.setsFlags = true) :
    (aluFinal op.code a b cin).2.z = true ↔
      if op = .CMP then a = b else (aluFinal op.code a b cin).1 = 0 := by
  cases op with
  | AND | OR | XOR | LSH | ASH | MUL | MOV => cases hop
  | CMP => exact beq_iff_eq
  | ADD | ADDU | ADDC | SUB | SUBC => exact beq_iff_eq

theorem addu_carry : (aluFinal AluOp.ADDU.code a b cin).2.c = true ↔
    2 ^ 32 ≤ AluOp.ADDU.exactValue a.toNat b.toNat cin := by
  rw [aluFinal_addu]
  refine decide_eq_true_iff.trans ?_
  dsimp only [AluOp.exactValue]
  omega

theorem addc_carry : (aluFinal AluOp.ADDC.code a b cin).2.c = true ↔
    2 ^ 32 ≤ AluOp.ADDC.exactValue a.toNat b.toNat cin := by
  rw [aluFinal_addc]
  refine decide_eq_true_iff.trans ?_
  dsimp only [AluOp.exactValue]
  omega

theorem sub_borrow : (aluFinal AluOp.SUB.code a b cin).2.c = true ↔
    0 ≤ AluOp.SUB.exactValue a.toNat b.toNat cin := by
  have hflag : (aluFinal AluOp.SUB.code a b cin).2.c = !decide (a < b) := rfl
  rw [hflag, Bool.not_eq_true', decide_eq_false_iff_not, BitVec.lt_def]
  dsimp only [AluOp.exactValue]
  omega

theorem subc_borrow : ((aluFinal AluOp.SUBC.code a b cin).2.c = true ↔
    0 ≤ AluOp.SUBC.exactValue a.toNat b.toNat cin) ↔
      ¬(cin = false ∧ b = BitVec.allOnes 32) := by
  have hflag : (aluFinal AluOp.SUBC.code a b cin).2.c =
      !decide (a < b + (BitVec.ofBool (!cin)).setWidth 32) := rfl
  have hexact : 0 ≤ AluOp.SUBC.exactValue a.toNat b.toNat cin ↔
      b.toNat + (!cin).toNat ≤ a.toNat := by
    cases cin <;> simp only [AluOp.exactValue, Bool.toNat_false, Bool.toNat_true, Bool.not_false,
      Bool.not_true] <;> omega
  rw [hflag, Bool.not_eq_true', decide_eq_false_iff_not, BitVec.not_lt, hexact,
    Carry.add_ofBool_le_iff (by decide), Bool.not_eq_true']

theorem add_overflow : (aluFinal AluOp.ADD.code a b cin).2.f = true ↔
    AluOp.ADD.exactValue a.toInt b.toInt cin ∉ Set.Ico (-2 ^ 31) (2 ^ 31) :=
  (Bool.eq_iff_iff.mp (saddOverflow_msb a b)).trans (Carry.saddOverflow_iff a b)

theorem sub_overflow : (aluFinal AluOp.SUB.code a b cin).2.f = true ↔
    AluOp.SUB.exactValue a.toInt b.toInt cin ∉ Set.Ico (-2 ^ 31) (2 ^ 31) :=
  (Bool.eq_iff_iff.mp (ssubOverflow_msb a b)).trans (Carry.ssubOverflow_iff a b)

theorem addc_overflow : ((aluFinal AluOp.ADDC.code a b cin).2.f = true ↔
    AluOp.ADDC.exactValue a.toInt b.toInt cin ∉ Set.Ico (-2 ^ 31) (2 ^ 31)) ↔
      ¬(cin = true ∧ b = BitVec.intMax 32) := by
  have hsum : (a.setWidth 33 + b.setWidth 33 + (BitVec.ofBool cin).setWidth 33).setWidth 32 =
      a + (b + (BitVec.ofBool cin).setWidth 32) := by
    refine BitVec.eq_of_toNat_eq ?_
    rw [BitVec.toNat_setWidth, BitVec.toNat_add, Carry.toNat_setWidth_ofBool (by decide),
      BitVec.toNat_add, BitVec.toNat_add, BitVec.toNat_add,
      Carry.toNat_setWidth_ofBool (by decide)]
    simp only [BitVec.toNat_setWidth]
    omega
  have hflag : (aluFinal AluOp.ADDC.code a b cin).2.f =
      a.saddOverflow (b + (BitVec.ofBool cin).setWidth 32) := by
    rw [← saddOverflow_msb, ← hsum]
    rfl
  rw [hflag]
  exact Carry.saddOverflow_add_ofBool (by decide) a b cin

theorem subc_overflow : ((aluFinal AluOp.SUBC.code a b cin).2.f = true ↔
    AluOp.SUBC.exactValue a.toInt b.toInt cin ∉ Set.Ico (-2 ^ 31) (2 ^ 31)) ↔
      ¬(cin = false ∧ b = BitVec.intMax 32) := by
  have hflag : (aluFinal AluOp.SUBC.code a b cin).2.f =
      a.ssubOverflow (b + (BitVec.ofBool (!cin)).setWidth 32) := ssubOverflow_msb a _
  have hexact : AluOp.SUBC.exactValue a.toInt b.toInt cin =
      a.toInt - b.toInt - (!cin).toNat := by
    cases cin <;> rfl
  have hcin : cin = false ↔ (!cin) = true := by rw [Bool.not_eq_true']
  rw [hflag, hexact, hcin]
  exact Carry.ssubOverflow_add_ofBool (by decide) a b (!cin)

/-! ### The reference -/

/-- **What the flags mean.** `ALUFinal` sets its flags as the reference has them if and only if the
carry in fits. -/
theorem flags_mean_iff {op : AluOp} (hop : op.setsFlags = true) :
    FlagsMean op a b cin (aluFinal op.code a b cin).1 (aluFinal op.code a b cin).2 ↔
      CarryFits op b cin := by
  constructor
  · intro h
    constructor
    · rintro rfl
      exact (addc_overflow a b cin).mp (h.overflow (.inr (.inl rfl)))
    · rintro rfl ⟨hcin, hmax | hall⟩
      · exact (subc_overflow a b cin).mp (h.overflow (.inr (.inr (.inr rfl)))) ⟨hcin, hmax⟩
      · exact (subc_borrow a b cin).mp (h.borrow (.inr rfl)) ⟨hcin, hall⟩
  · rintro ⟨haddc, hsubc⟩
    refine ⟨zero_flag a b cin hop, ?_, ?_, ?_, ?_, ?_⟩
    · rintro (rfl | rfl)
      · exact addu_carry a b cin
      · exact addc_carry a b cin
    · rintro (rfl | rfl)
      · exact sub_borrow a b cin
      · exact (subc_borrow a b cin).mpr fun h => hsubc rfl ⟨h.1, .inr h.2⟩
    · rintro (rfl | rfl | rfl | rfl)
      · exact add_overflow a b cin
      · exact (addc_overflow a b cin).mpr (haddc rfl)
      · exact sub_overflow a b cin
      · exact (subc_overflow a b cin).mpr fun h => hsubc rfl ⟨h.1, .inl h.2⟩
    · rintro rfl
      exact ⟨decide_eq_true_iff, decide_eq_true_iff⟩
    · rintro rfl
      exact condition_compares a b _ beq_iff_eq decide_eq_true_iff

end

/-- The carry of `2^31 + 2^31`, added up with a carry in. -/
theorem flags_mean_iff_addc :
    AluOp.ADDC.setsFlags = true ∧ CarryFits .ADDC 0x80000000 true ∧
      FlagsMean .ADDC 0x80000000 0x80000000 true 1 ⟨false, true, true, false, false⟩ := by
  have hfits : CarryFits .ADDC 0x80000000 true :=
    ⟨fun _ h => absurd h.2 (by decide), fun h => absurd h (by decide)⟩
  exact ⟨rfl, hfits, (flags_mean_iff 0x80000000 0x80000000 true rfl).mpr hfits⟩

/-- `2^31 - 1` and a carry, added to zero, overflow, and the flag does not say so. -/
theorem not_flags_mean : ¬∀ (op : AluOp) (a b : Word) (cin : Bool), op.setsFlags = true →
    FlagsMean op a b cin (aluFinal op.code a b cin).1 (aluFinal op.code a b cin).2 := by
  intro h
  have hflag : (aluFinal AluOp.ADDC.code 0 0x7FFFFFFF true).2.f = false := rfl
  have hover := ((h .ADDC 0 0x7FFFFFFF true rfl).overflow (.inr (.inl rfl))).mpr (by decide)
  exact Bool.false_ne_true (hflag.symm.trans hover)

end Fmma
