import Mathlib.Data.BitVec
import Mathlib.Data.Int.ConditionallyCompleteOrder
import Mathlib.Data.Nat.Digits.Defs
import Mathlib.Order.Interval.Set.Defs
import Mathlib.Tactic.Linarith
import Mathlib.Tactic.Ring

/-!
# Carries

An adder with a carry in adds the carry to one operand first. What it says of the borrow and of the
overflow of the whole is exact as long as that first sum does not wrap, and wrong if it does.

A number of several words is added a word at a time, each with the carry of the words below it.
-/

namespace Carry

variable {w : ℕ}

theorem toNat_setWidth_ofBool (h : 0 < w) (x : Bool) :
    ((BitVec.ofBool x).setWidth w).toNat = x.toNat := by
  rw [BitVec.toNat_setWidth, BitVec.toNat_ofBool]
  exact Nat.mod_eq_of_lt (x.toNat_lt.trans_le (Nat.pow_le_pow_right Nat.two_pos h))

theorem setWidth_ofBool (c : Bool) : (BitVec.ofBool c).setWidth w = BitVec.ofNat w c.toNat := by
  refine BitVec.eq_of_toNat_eq ?_
  rw [BitVec.toNat_setWidth, BitVec.toNat_ofBool, BitVec.toNat_ofNat]

/-- An operand and a carry, as unsigned numbers. -/
theorem toNat_add_ofBool (h : 0 < w) (y : BitVec w) (c : Bool) :
    (y + (BitVec.ofBool c).setWidth w).toNat = (y.toNat + c.toNat) % 2 ^ w := by
  rw [BitVec.toNat_add, toNat_setWidth_ofBool h]

/-- An operand and a carry, as signed numbers. -/
theorem toInt_add_ofBool (h : 0 < w) (y : BitVec w) (c : Bool)
    (hwrap : ¬(c = true ∧ y = BitVec.intMax w)) :
    (y + (BitVec.ofBool c).setWidth w).toInt = y.toInt + c.toNat := by
  cases c with
  | false =>
    rw [setWidth_ofBool, Bool.toNat_false, BitVec.add_zero]
    exact (Int.add_zero _).symm
  | true =>
    have hpow : 2 ^ w = 2 * 2 ^ (w - 1) := by
      rw [← Nat.pow_succ', Nat.succ_eq_add_one, Nat.sub_add_cancel h]
    have hmax : y.toNat ≠ 2 ^ (w - 1) - 1 := fun hy =>
      hwrap ⟨rfl, BitVec.eq_of_toNat_eq (hy.trans BitVec.toNat_intMax.symm)⟩
    have hlt := y.isLt
    rw [BitVec.toInt_eq_toNat_cond, BitVec.toInt_eq_toNat_cond, toNat_add_ofBool h, Bool.toNat_true]
    rcases Nat.lt_or_eq_of_le (Nat.succ_le_of_lt hlt) with hsucc | hsucc
    · rw [Nat.mod_eq_of_lt hsucc]
      split_ifs <;> omega
    · have hone : y.toNat + 1 = 2 ^ w := hsucc
      rw [hone, Nat.mod_self]
      split_ifs <;> omega

/-- **Borrow.** -/
theorem add_ofBool_le_iff (h : 0 < w) (x y : BitVec w) (c : Bool) :
    (y + (BitVec.ofBool c).setWidth w ≤ x ↔ y.toNat + c.toNat ≤ x.toNat) ↔
      ¬(c = true ∧ y = BitVec.allOnes w) := by
  have hall : y = BitVec.allOnes w ↔ y.toNat = 2 ^ w - 1 := by
    rw [← BitVec.toNat_inj, BitVec.toNat_allOnes]
  have hx := x.isLt
  have hy := y.isLt
  have hc := c.toNat_lt
  rw [BitVec.le_def, toNat_add_ofBool h, hall]
  by_cases hwrap : y.toNat + c.toNat < 2 ^ w
  · rw [Nat.mod_eq_of_lt hwrap]
    refine iff_of_true Iff.rfl ?_
    rintro ⟨rfl, hmax⟩
    rw [Bool.toNat_true] at hwrap
    omega
  · have hone : c = true := by
      cases c with
      | false =>
        rw [Bool.toNat_false] at hwrap
        exact absurd hy hwrap
      | true => rfl
    subst hone
    rw [Bool.toNat_true] at hwrap ⊢
    have hsum : y.toNat + 1 = 2 ^ w := by omega
    rw [hsum, Nat.mod_self]
    refine iff_of_false ?_ (not_not.mpr ⟨rfl, by omega⟩)
    exact fun hiff => absurd (hiff.mp (Nat.zero_le _)) (by omega)

/-- The numbers a signed word can be. -/
theorem mem_signed_iff (x : Int) : x ∉ Set.Ico (-2 ^ (w - 1)) (2 ^ (w - 1)) ↔
    2 ^ (w - 1) ≤ x ∨ x < -2 ^ (w - 1) := by
  rw [Set.mem_Ico, not_and_or, not_le, not_lt, or_comm]

theorem saddOverflow_iff (x y : BitVec w) : x.saddOverflow y = true ↔
    x.toInt + y.toInt ∉ Set.Ico (-2 ^ (w - 1)) (2 ^ (w - 1)) := by
  rw [mem_signed_iff, BitVec.saddOverflow, Bool.or_eq_true, decide_eq_true_eq, decide_eq_true_eq]

theorem ssubOverflow_iff (x y : BitVec w) : x.ssubOverflow y = true ↔
    x.toInt - y.toInt ∉ Set.Ico (-2 ^ (w - 1)) (2 ^ (w - 1)) := by
  rw [mem_signed_iff, BitVec.ssubOverflow, Bool.or_eq_true, decide_eq_true_eq, decide_eq_true_eq]

/-- The largest number and a carry are the smallest. -/
theorem toInt_intMax_add (h : 0 < w) :
    (BitVec.intMax w + (BitVec.ofBool true).setWidth w).toInt = -2 ^ (w - 1) := by
  rw [setWidth_ofBool, Bool.toNat_true, BitVec.intMax_add_one, BitVec.toInt_intMin_of_pos h]

/-- **Overflow of a sum.** -/
theorem saddOverflow_add_ofBool (h : 0 < w) (x y : BitVec w) (c : Bool) :
    (x.saddOverflow (y + (BitVec.ofBool c).setWidth w) = true ↔
      x.toInt + y.toInt + c.toNat ∉ Set.Ico (-2 ^ (w - 1)) (2 ^ (w - 1))) ↔
      ¬(c = true ∧ y = BitVec.intMax w) := by
  rw [saddOverflow_iff]
  by_cases hwrap : c = true ∧ y = BitVec.intMax w
  · refine iff_of_false ?_ (not_not.mpr hwrap)
    obtain ⟨rfl, rfl⟩ := hwrap
    have hlo := x.le_toInt
    have hhi := x.toInt_lt
    rw [toInt_intMax_add h, BitVec.toInt_intMax, mem_signed_iff, mem_signed_iff, Bool.toNat_true]
    omega
  · rw [toInt_add_ofBool h y c hwrap, Int.add_assoc]
    exact iff_of_true Iff.rfl hwrap

/-- **Overflow of a difference.** -/
theorem ssubOverflow_add_ofBool (h : 0 < w) (x y : BitVec w) (c : Bool) :
    (x.ssubOverflow (y + (BitVec.ofBool c).setWidth w) = true ↔
      x.toInt - y.toInt - c.toNat ∉ Set.Ico (-2 ^ (w - 1)) (2 ^ (w - 1))) ↔
      ¬(c = true ∧ y = BitVec.intMax w) := by
  rw [ssubOverflow_iff]
  by_cases hwrap : c = true ∧ y = BitVec.intMax w
  · refine iff_of_false ?_ (not_not.mpr hwrap)
    obtain ⟨rfl, rfl⟩ := hwrap
    have hlo := x.le_toInt
    have hhi := x.toInt_lt
    rw [toInt_intMax_add h, BitVec.toInt_intMax, mem_signed_iff, mem_signed_iff, Bool.toNat_true]
    omega
  · rw [toInt_add_ofBool h y c hwrap, ← Int.sub_sub]
    exact iff_of_true Iff.rfl hwrap

/-! ### Numbers of several words -/

section

variable (x y : ℕ → BitVec w)

/-- The number that the first `n` words make, the lowest first. -/
def number (n : ℕ) : ℕ := Nat.ofDigits (2 ^ w) ((List.range n).map fun i => (x i).toNat)

/-- The carry out of the first `n` words. -/
def carryAt : ℕ → Bool
  | 0 => false
  | n + 1 => decide (2 ^ w ≤ (x n).toNat + (y n).toNat + (carryAt n).toNat)

/-- Word `n` of a sum. -/
def sumAt (n : ℕ) : BitVec w := BitVec.ofNat w ((x n).toNat + (y n).toNat + (carryAt x y n).toNat)

theorem number_succ (n : ℕ) : number x (n + 1) = number x n + (2 ^ w) ^ n * (x n).toNat := by
  rw [number, List.range_succ, List.map_append, Nat.ofDigits_append, List.length_map,
    List.length_range]
  rfl

theorem number_congr {x y : ℕ → BitVec w} {n : ℕ} (h : ∀ i < n, x i = y i) :
    number x n = number y n := by
  rw [number, number, List.map_congr_left fun i hi => congrArg _ (h i (List.mem_range.mp hi))]

theorem number_lt (n : ℕ) : number x n < (2 ^ w) ^ n := by
  induction n with
  | zero => exact Nat.one_pos
  | succ n ih =>
    have hword := (x n).isLt
    rw [number_succ, pow_succ]
    nlinarith

/-- A word of a sum and its carry. -/
theorem toNat_sumAt (n : ℕ) : (sumAt x y n).toNat + 2 ^ w * (carryAt x y (n + 1)).toNat =
    (x n).toNat + (y n).toNat + (carryAt x y n).toNat := by
  have hx := (x n).isLt
  have hy := (y n).isLt
  have hc := (carryAt x y n).toNat_lt
  rw [sumAt, carryAt, BitVec.toNat_ofNat]
  by_cases h : 2 ^ w ≤ (x n).toNat + (y n).toNat + (carryAt x y n).toNat
  · rw [decide_eq_true h, Nat.mod_eq_sub_mod h, Nat.mod_eq_of_lt (by omega), Bool.toNat_true]
    omega
  · rw [decide_eq_false h, Nat.mod_eq_of_lt (Nat.not_le.mp h), Bool.toNat_false]
    rfl

/-- **A sum, a word at a time.** -/
theorem number_sumAt (n : ℕ) : number (sumAt x y) n + (2 ^ w) ^ n * (carryAt x y n).toNat =
    number x n + number y n := by
  induction n with
  | zero => rfl
  | succ n ih =>
    have hword := toNat_sumAt x y n
    calc number (sumAt x y) (n + 1) + (2 ^ w) ^ (n + 1) * (carryAt x y (n + 1)).toNat
        = number (sumAt x y) n +
            (2 ^ w) ^ n * ((sumAt x y n).toNat + 2 ^ w * (carryAt x y (n + 1)).toNat) := by
          rw [number_succ]
          ring
      _ = number (sumAt x y) n + (2 ^ w) ^ n * (carryAt x y n).toNat +
            (2 ^ w) ^ n * ((x n).toNat + (y n).toNat) := by
          rw [hword]
          ring
      _ = number x (n + 1) + number y (n + 1) := by
          rw [ih, number_succ, number_succ]
          ring

/-- The words of a sum, and what is carried out of it. -/
theorem number_sumAt_eq (n : ℕ) :
    number (sumAt x y) n = (number x n + number y n) % (2 ^ w) ^ n ∧
      (carryAt x y n = true ↔ (2 ^ w) ^ n ≤ number x n + number y n) := by
  have hsum := number_sumAt x y n
  have hlt := number_lt (sumAt x y) n
  rw [← hsum]
  cases carryAt x y n with
  | false =>
    rw [Bool.toNat_false, Nat.mul_zero, Nat.add_zero, Nat.mod_eq_of_lt hlt]
    exact ⟨rfl, iff_of_false Bool.false_ne_true (Nat.not_le.mpr hlt)⟩
  | true =>
    rw [Bool.toNat_true, Nat.mul_one, Nat.add_mod_right, Nat.mod_eq_of_lt hlt]
    exact ⟨rfl, iff_of_true rfl (Nat.le_add_left _ _)⟩

end

end Carry
