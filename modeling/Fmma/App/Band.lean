import Fmma.App.Software
import Fmma.Strategy.Thread
import Mathlib.Algebra.Group.Int.Defs
import Mathlib.Algebra.Group.Nat.Defs

/-!
# The band test in 32 bits and in 64

`fmma_strategy.c` compares in 64-bit integers, `trading.asm` in 32-bit words, where the doubled
threshold and the ends of the band may wrap around. `BandExact` says when that does not matter.
-/

namespace Fmma

/-- What `trading.asm` decides, by its band test. -/
def bandSide (anchor sum threshold : Word) : Option Side :=
  if sum.toInt < (anchor - (threshold + threshold)).toInt then some .buy
  else if (anchor + (threshold + threshold)).toInt < sum.toInt then some .sell
  else none

/-- A decision as a value of `SIGNAL`. -/
def Side.word : Option Side → Word
  | some side => side.signal
  | none => signalNone

theorem Strategy.bandTest_eq (r : Regs) (sum threshold : Word) :
    bandTest r sum threshold = ⟨match bandSide r.anchor sum threshold with
      | some side => .enable side
      | none => .loop, { r with anchor := sum }⟩ := by
  simp only [bandTest, bandSide]
  split_ifs <;> rfl

/-- The ends of the band in 32 bits do not change the decision: below `2 ^ 30` the doubled threshold
is exact, and the upper end is, or does not matter; from there on there is nothing to decide, and
the doubled threshold as it wraps around must not decide anything. -/
def BandExact (anchor sum : Int) (threshold : ℕ) : Prop :=
  if threshold < 2 ^ 30 then anchor + 2 * threshold < 2 ^ 31 ∨ sum < anchor - 2 * threshold
  else if 2 * threshold % 2 ^ 32 < 2 ^ 31 then
    anchor + (2 * threshold % 2 ^ 32 : ℕ) < 2 ^ 31 ∧
      anchor - (2 * threshold % 2 ^ 32 : ℕ) ≤ sum ∧ sum ≤ anchor + (2 * threshold % 2 ^ 32 : ℕ)
  else 2 ^ 31 ≤ anchor + (2 ^ 32 - (2 * threshold % 2 ^ 32 : ℕ)) ∧
    sum ≤ anchor - (2 ^ 32 - (2 * threshold % 2 ^ 32 : ℕ))

/-- The lower end of the band, in 32 bits. -/
theorem toInt_lower {anchor d : Word} (h : anchor.toNat < 2 ^ 31) : (anchor - d).toInt =
    if d.toNat ≤ anchor.toNat + 2 ^ 31 then (anchor.toNat : Int) - d.toNat
    else (anchor.toNat : Int) - d.toNat + 2 ^ 32 := by
  have hd := d.isLt
  rw [BitVec.toInt_eq_toNat_cond, BitVec.toNat_sub]
  split_ifs <;> omega

/-- The upper end of the band, in 32 bits. -/
theorem toInt_upper {anchor d : Word} (h : anchor.toNat < 2 ^ 31) : (anchor + d).toInt =
    if anchor.toNat + d.toNat < 2 ^ 31 then (anchor.toNat : Int) + d.toNat
    else (anchor.toNat : Int) + d.toNat - 2 ^ 32 := by
  have hd := d.isLt
  rw [BitVec.toInt_eq_toNat_cond, BitVec.toNat_add]
  split_ifs <;> omega

/-- Two three-way decisions. -/
theorem decision_eq_iff (p q p' q' : Prop) [Decidable p] [Decidable q] [Decidable p']
    [Decidable q'] :
    Side.word (if p then some .buy else if q then some .sell else none) =
      (if p' then signalBuy else if q' then signalSell else signalNone) ↔
      (p ↔ p') ∧ (¬p → (q ↔ q')) := by
  by_cases hp : p <;> by_cases hp' : p' <;> by_cases hq : q <;> by_cases hq' : q' <;>
    simp [hp, hp', hq, hq', Side.word]

/-- **The two band tests** decide the same just when the band is exact. -/
theorem bandSide_eq_want_iff (σ : SoftStrategy) {anchor sum : Word}
    (hanchor : anchor.toNat < 2 ^ 31) (hsum : sum.toNat < 2 ^ 31) (hσ : σ.anchor = anchor.toNat) :
    Side.word (bandSide anchor sum σ.threshold) = σ.want sum.toNat ↔
      BandExact anchor.toNat sum.toNat σ.threshold.toNat := by
  have hd : (σ.threshold + σ.threshold).toNat = 2 * σ.threshold.toNat % 2 ^ 32 := by
    rw [BitVec.toNat_add, Nat.two_mul]
  have hT := σ.threshold.isLt
  have hs : sum.toInt = sum.toNat := BitVec.toInt_eq_toNat_of_lt (by omega)
  have hlower := toInt_lower (d := σ.threshold + σ.threshold) hanchor
  have hupper := toInt_upper (d := σ.threshold + σ.threshold) hanchor
  rw [bandSide, SoftStrategy.want, decision_eq_iff, hs, hσ, BandExact]
  rw [hd] at hlower hupper
  split_ifs at hlower hupper ⊢ <;> omega

end Fmma
