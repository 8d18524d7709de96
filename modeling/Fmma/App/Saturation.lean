import Fmma.App.Decimal

/-!
# Saturation of the parser

The integer part of a number stops growing with its ninth digit, whatever comes behind. So a number
of ten digits may be parsed to less than one of nine: the order of the results is that of the
leading nine digits and of the places, which is not the order of the numbers.
-/

namespace Fmma

namespace Decimal

/-- The leading nine digits of the integer part, or all it has. -/
def leadingNine (d : Decimal) : ℕ := Numeral.lead 10 8 d.units

/-- The larger number has an integer part of nine digits at most, or the order is also that of the
leading nine digits and, for equal ones, of the first `k` places. -/
def InOrder (k : ℕ) (s t : Decimal) : Prop :=
  t.units < 10 ^ 9 ∨ s.leadingNine < t.leadingNine ∨
    s.leadingNine = t.leadingNine ∧ s.places k ≤ t.places k

theorem rational_of_none {d : Decimal} (h : d.sign = .none) : d.rational = d.magnitude := by
  rw [rational, h]
  rfl

/-- The order of two numbers is that of their integer parts and places. -/
theorem units_places_le {s t : Decimal} (h : s.magnitude ≤ t.magnitude) (k : ℕ) :
    s.units * 10 ^ k + s.places k ≤ t.units * 10 ^ k + t.places k := by
  have hscaled : (10 : ℚ) ^ k * s.magnitude ≤ 10 ^ k * t.magnitude :=
    mul_le_mul_of_nonneg_left h (by positivity)
  have hfloor := Int.floor_mono hscaled
  rw [s.floor_magnitude, t.floor_magnitude] at hfloor
  exact_mod_cast hfloor

end Decimal

/-- Two numbers with `k` places are in the order of their integer parts and, for equal ones, of
their places. -/
theorem mul_add_le_mul_add_iff {m a b p q : ℕ} (hp : p < m) (hq : q < m) :
    a * m + p ≤ b * m + q ↔ a < b ∨ a = b ∧ p ≤ q := by
  rcases lt_trichotomy a b with h | rfl | h
  · have hstep : (a + 1) * m ≤ b * m := Nat.mul_le_mul_right m h
    rw [Nat.add_mul, Nat.one_mul] at hstep
    exact iff_of_true (by omega) (.inl h)
  · omega
  · have hstep : (b + 1) * m ≤ a * m := Nat.mul_le_mul_right m h
    rw [Nat.add_mul, Nat.one_mul] at hstep
    exact iff_of_false (by omega) (by omega)

namespace Fixed

open Decimal

variable {s t : Decimal} {k : ℕ}

/-- The results are in the order of the leading nine digits and the places. -/
theorem parseScaled_le_iff (hs : s.sign = .none) (ht : t.sign = .none) (hk : k ≤ 9) :
    parseScaled s.text (10 ^ k) ≤ parseScaled t.text (10 ^ k) ↔
      s.leadingNine < t.leadingNine ∨ s.leadingNine = t.leadingNine ∧ s.places k ≤ t.places k := by
  have hparse : ∀ d : Decimal, d.sign = .none →
      parseScaled d.text (10 ^ k) = ((d.leadingNine * 10 ^ k + d.places k : ℕ) : Int) := by
    intro d hd
    have htext := parseScaled_text d d.ends_nil hk
    rw [List.append_nil, hd] at htext
    rw [htext]
    push_cast
    rfl
  rw [hparse s hs, hparse t ht, Int.ofNat_le]
  exact mul_add_le_mul_add_iff (s.places_lt k) (t.places_lt k)

/-- **Saturation and order.** Of two numbers that are not negative the smaller one is parsed to the
smaller value just when the larger one has an integer part of nine digits at most, or the leading
nine digits and the places are in the same order. -/
theorem saturation_monotone_iff (hs : s.sign = .none) (ht : t.sign = .none) (hk : k ≤ 9)
    (hle : s.rational ≤ t.rational) :
    parseScaled s.text (10 ^ k) ≤ parseScaled t.text (10 ^ k) ↔ InOrder k s t := by
  rw [parseScaled_le_iff hs ht hk, InOrder]
  refine ⟨.inr, fun h => h.elim (fun hsmall => ?_) id⟩
  -- nothing has been cut off
  rw [rational_of_none hs, rational_of_none ht] at hle
  have horder := (mul_add_le_mul_add_iff (s.places_lt k) (t.places_lt k)).mp
    (units_places_le hle k)
  have hunits : s.units < 10 ^ 9 := by omega
  rwa [leadingNine, leadingNine, Numeral.lead_eq_self (by decide) hunits,
    Numeral.lead_eq_self (by decide) hsmall]

/-! ### Ten digits -/

namespace Saturated

/-- `999999999`. -/
def nines : Decimal := ⟨.none, List.replicate 9 9, none, List.cons_ne_nil _ _⟩

/-- `1000000000`. -/
def ten : Decimal := ⟨.none, 1 :: List.replicate 9 0, none, List.cons_ne_nil _ _⟩

theorem nines_le_ten : nines.rational ≤ ten.rational := by
  have hnines : Numeral.value (List.replicate 9 (9 : Fin 10)) = 999999999 := by decide
  have hten : Numeral.value (1 :: List.replicate 9 (0 : Fin 10)) = 1000000000 := by decide
  rw [rational_of_none rfl, rational_of_none rfl]
  simp only [magnitude, nines, ten, units, tail, hnines, hten, Option.getD_none,
    Numeral.value_nil]
  norm_num

end Saturated

open Saturated

/-- Nine nines and a number of ten digits are parsed in the wrong order. -/
theorem saturation_monotone_nines_ten :
    parseScaled nines.text (10 ^ 2) ≤ parseScaled ten.text (10 ^ 2) ↔ InOrder 2 nines ten :=
  saturation_monotone_iff rfl rfl (by decide) nines_le_ten

/-- A number of ten digits is parsed to less than one of nine. -/
theorem not_saturation_monotone : ¬∀ (scale : ℕ), scale = 100 ∨ scale = 10000 →
    ∀ s t : Decimal, s.sign = .none → t.sign = .none → s.rational ≤ t.rational →
      parseScaled s.text scale ≤ parseScaled t.text scale := by
  intro h
  exact absurd (h 100 (.inl rfl) nines ten rfl rfl nines_le_ten) (by decide)

end Fixed

end Fmma
