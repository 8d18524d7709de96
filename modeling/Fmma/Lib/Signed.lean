import Mathlib.Data.BitVec
import Mathlib.Tactic.Common
import Mathlib.Tactic.Ring
import Mathlib.Tactic.Linarith

/-!
# Signed words

What a word of `w + 1` bits is that a number has been computed in: the number as long as it fits,
and beyond that by `2 ^ (w + 1)` too low or too high.
-/

namespace Signed

variable {w : ℕ}

/-- A number that fits. -/
theorem bmod_of_mem {x : ℤ} (hlo : -2 ^ w ≤ x) (hhi : x < 2 ^ w) : x.bmod (2 ^ (w + 1)) = x := by
  refine Int.bmod_eq_of_le_mul_two ?_ ?_ <;>
  · push_cast
    rw [pow_succ]
    linarith

/-- A number that is too low comes out too high. -/
theorem bmod_of_low {x : ℤ} (hlo : -2 ^ (w + 1) - 2 ^ w ≤ x) (hhi : x < -2 ^ w) :
    x.bmod (2 ^ (w + 1)) = x + 2 ^ (w + 1) := by
  have hcast : (x + 2 ^ (w + 1)).bmod (2 ^ (w + 1)) = x.bmod (2 ^ (w + 1)) := by
    have h := Int.add_bmod_right x (2 ^ (w + 1))
    push_cast at h
    exact h
  rw [← hcast, bmod_of_mem]
  · rw [pow_succ] at hlo ⊢
    linarith
  · rw [pow_succ]
    linarith

/-- A number that is too high comes out too low. -/
theorem bmod_of_high {x : ℤ} (hlo : 2 ^ w ≤ x) (hhi : x < 2 ^ (w + 1) + 2 ^ w) :
    x.bmod (2 ^ (w + 1)) = x - 2 ^ (w + 1) := by
  have hcast : (x - 2 ^ (w + 1)).bmod (2 ^ (w + 1)) = x.bmod (2 ^ (w + 1)) := by
    have h := Int.sub_bmod_right x (2 ^ (w + 1))
    push_cast at h
    exact h
  rw [← hcast, bmod_of_mem]
  · rw [pow_succ]
    linarith
  · rw [pow_succ] at hhi ⊢
    linarith

/-- An unsigned word that is extended. -/
theorem toInt_setWidth {v : ℕ} (x : BitVec v) (h : v ≤ w) :
    (x.setWidth (w + 1)).toInt = x.toNat := by
  have hlt : x.toNat < 2 ^ w := x.isLt.trans_le (Nat.pow_le_pow_right Nat.two_pos h)
  rw [BitVec.toInt_setWidth]
  refine bmod_of_mem ?_ (by exact_mod_cast hlt)
  have hpos : (0 : ℤ) < 2 ^ w := by positivity
  linarith [Int.natCast_nonneg x.toNat]

theorem toInt_one (h : 0 < w) : (1 : BitVec (w + 1)).toInt = 1 := by
  have hlt : (1 : ℤ) < 2 ^ w := one_lt_pow₀ one_lt_two h.ne'
  have hone : (1 : BitVec (w + 1)).toInt = (1 : ℤ).bmod (2 ^ (w + 1)) := BitVec.toInt_ofNat 1
  rw [hone, bmod_of_mem (by linarith) hlt]

/-- A number that is on a grid is what the low bits of its word say. -/
theorem toNat_setWidth {v : ℕ} {x : BitVec (w + 1)} (hlo : 0 ≤ x.toInt) (hhi : x.toInt < 2 ^ v) :
    ((x.setWidth v).toNat : ℤ) = x.toInt := by
  have hnat : (x.toNat : ℤ) = x.toInt := by
    rw [BitVec.toInt_eq_toNat_of_msb]
    rw [BitVec.msb_eq_toInt, decide_eq_false_iff_not]
    exact not_lt.mpr hlo
  have hlt : x.toNat < 2 ^ v := by
    rw [← hnat] at hhi
    exact_mod_cast hhi
  rw [BitVec.toNat_setWidth, Nat.mod_eq_of_lt hlt, hnat]

theorem ofInt_sub (x y : ℤ) : BitVec.ofInt w (x - y) = BitVec.ofInt w x - BitVec.ofInt w y := by
  rw [Int.sub_eq_add_neg, BitVec.ofInt_add, BitVec.ofInt_neg, BitVec.sub_eq_add_neg]

/-- What a logical shift by one leaves is never negative. -/
theorem toInt_half (x : BitVec w) : (x >>> 1).toInt = x.toNat / 2 := by
  rw [BitVec.toInt_ushiftRight_of_lt Nat.one_pos, Nat.shiftRight_eq_div_pow]
  rfl

/-- It is the half of a number that is not negative either. -/
theorem toInt_half_ofInt {x : ℤ} (hlo : 0 ≤ x) (hhi : x < 2 ^ w) :
    (BitVec.ofInt w x >>> 1).toInt = x / 2 := by
  have hlt : x.toNat < 2 ^ w := by
    rw [Int.toNat_lt hlo]
    exact_mod_cast hhi
  have hnat : (BitVec.ofInt w x).toNat = x.toNat := by
    rw [← Int.toNat_of_nonneg hlo, BitVec.ofInt_natCast, BitVec.toNat_ofNat, Int.toNat_natCast,
      Nat.mod_eq_of_lt hlt]
  rw [toInt_half, hnat, Int.toNat_of_nonneg hlo]

end Signed
