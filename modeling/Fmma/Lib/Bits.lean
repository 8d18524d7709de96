import Mathlib.Tactic.Ring

/-!
# The bits of a number

The top bit of a number with a bound, and its fields: what a part-select of a vector is as a
quotient and a remainder.
-/

namespace Bits

/-- The top bit says whether the number reaches half of its bound. -/
theorem testBit_top {n k : ℕ} (h : n < 2 ^ (k + 1)) : n.testBit k = decide (2 ^ k ≤ n) := by
  have hdiv : n / 2 ^ k < 2 := by
    rw [Nat.div_lt_iff_lt_mul (Nat.two_pow_pos k), ← Nat.pow_succ']
    exact h
  rw [Nat.testBit_eq_decide_div_mod_eq, Nat.mod_eq_of_lt hdiv, decide_eq_decide,
    ← Nat.one_le_div_iff (Nat.two_pow_pos k)]
  omega

/-- A field of zeros above position `s`, of a number below the end of the field. -/
theorem field_eq_zero_iff {n s m : ℕ} (h : n < 2 ^ (s + m)) :
    (n >>> s) % 2 ^ m = 0 ↔ n < 2 ^ s := by
  have hlt : n / 2 ^ s < 2 ^ m := by
    rw [Nat.div_lt_iff_lt_mul (Nat.two_pow_pos s), ← Nat.pow_add, Nat.add_comm m s]
    exact h
  rw [Nat.shiftRight_eq_div_pow, Nat.mod_eq_of_lt hlt, Nat.div_eq_zero_iff]
  constructor
  · rintro (hz | hn)
    · exact absurd hz (Nat.two_pow_pos s).ne'
    · exact hn
  · exact .inr

end Bits
