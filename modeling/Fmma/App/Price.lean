import Fmma.App.Decimal
import Fmma.Isa

/-!
# Prices

`fmma_clamp_price`, and what becomes of the text of a price on its way to the fabric. The parser
cuts an integer part of more than nine digits, but only one that is far above the largest price, so
the clamp makes the same of it as of the number itself.
-/

namespace Fmma

namespace Fixed

/-- `FMMA_PRICE_MAX`. -/
def priceMax : Int := 0x3FFFFFFF

/-- `fmma_clamp_price`: the price, and `clamped`. -/
def clampPrice (value : Int) : Word × Bool :=
  if value < 0 then (0, true)
  else if priceMax < value then (BitVec.ofInt 32 priceMax, true)
  else (BitVec.ofInt 32 value, false)

/-! ### The parser with its arithmetic checked -/

/-- A value that is not negative, in a variable of so many bits. -/
def within (bits n : ℕ) : Option ℕ := if n < 2 ^ bits then some n else none

/-- The loop over the integer part. -/
def wholeChecked (acc : ℕ) : Text → Option (ℕ × Text)
  | [] => some (acc, [])
  | c :: t =>
    match digit c with
    | some d =>
      if acc < wholeSaturate then do
        let tens ← within 63 (acc * 10)
        let sum ← within 63 (tens + d)
        wholeChecked sum t
      else wholeChecked acc t
    | none => some (acc, c :: t)

/-- The loop over the fraction. `div` is a `uint32_t`. -/
def fractionChecked (scale frac div : ℕ) : Text → Option (ℕ × ℕ)
  | [] => some (frac, div)
  | c :: t =>
    match digit c with
    | some d =>
      if div < scale then do
        let tens ← within 63 (frac * 10)
        let sum ← within 63 (tens + d)
        let next ← within 32 (div * 10)
        fractionChecked scale sum next t
      else fractionChecked scale frac div t
    | none => some (frac, div)

/-- From the point on. -/
def fractionFromChecked (scale : ℕ) : Text → Option (ℕ × ℕ)
  | '.' :: p => fractionChecked scale 0 1 p
  | _ => some (0, 1)

/-- The loop that fills the fraction up. -/
def padChecked (scale : ℕ) : ℕ → ℕ → ℕ → Option ℕ
  | 0, frac, _ => some frac
  | n + 1, frac, div =>
    if div < scale then do
      let tens ← within 63 (frac * 10)
      let next ← within 32 (div * 10)
      padChecked scale n tens next
    else some frac

/-- `fmma_parse_scaled`, if every value it computes fits its variable. -/
def parseScaledChecked (s : Text) (scale : ℕ) : Option Int :=
  let (neg, p) := sign s
  if scale = 0 ∨ (p.head?.bind digit).isNone then some parseError
  else do
    let (whole, p) ← wholeChecked 0 p
    let (frac, div) ← fractionFromChecked scale p
    let frac ← padChecked scale 10 frac div
    let product ← within 63 (whole * scale)
    let v ← within 63 (product + frac)
    some (if neg then -v else v)

variable {scale frac div : ℕ}

theorem within_eq_some {bits n : ℕ} (h : n < 2 ^ bits) : within bits n = some n := if_pos h

theorem digit_lt {c : Char} {d : ℕ} (h : digit c = some d) : d < 10 := by
  obtain ⟨e, rfl⟩ := exists_digitChar h
  rw [digit_digitChar, Option.some_inj] at h
  rw [← h]
  exact e.isLt

/-- The integer part stays below nine digits' worth. -/
theorem wholeChecked_eq {acc : ℕ} (hacc : acc < 10 ^ 9) (t : Text) :
    wholeChecked acc t = some (whole acc t) ∧ (whole acc t).1 < 10 ^ 9 := by
  induction t generalizing acc with
  | nil => exact ⟨rfl, hacc⟩
  | cons c t ih =>
    rw [wholeChecked, whole]
    cases hc : digit c with
    | none => exact ⟨rfl, hacc⟩
    | some d =>
      have hd := digit_lt hc
      by_cases hlt : acc < wholeSaturate
      · -- below the threshold there is room for one more digit
        have hnext : acc * 10 + d < 10 ^ 9 := by
          rw [wholeSaturate] at hlt
          omega
        dsimp only
        rw [if_pos hlt, if_pos hlt, within_eq_some (by omega)]
        simp only [Option.bind_eq_bind, Option.bind_some]
        rw [within_eq_some (by omega)]
        exact ih hnext
      · -- the digit is passed over
        dsimp only
        rw [if_neg hlt, if_neg hlt]
        exact ih hacc

/-- The fraction stays below its divisor, and the divisor below ten times the scale. -/
theorem fractionChecked_eq (hscale : scale ≤ 10 ^ 8) (hfrac : frac < div) (hdiv : div < 10 ^ 9)
    (t : Text) : fractionChecked scale frac div t = some (fraction scale frac div t) ∧
      (fraction scale frac div t).1 < (fraction scale frac div t).2 ∧
      (fraction scale frac div t).2 < 10 ^ 9 := by
  induction t generalizing frac div with
  | nil => exact ⟨rfl, hfrac, hdiv⟩
  | cons c t ih =>
    rw [fractionChecked, fraction]
    cases hc : digit c with
    | none => exact ⟨rfl, hfrac, hdiv⟩
    | some d =>
      have hd := digit_lt hc
      by_cases hlt : div < scale
      · have hnext : frac * 10 + d < div * 10 ∧ div * 10 < 10 ^ 9 := by omega
        dsimp only
        rw [if_pos hlt, if_pos hlt, within_eq_some (by omega)]
        simp only [Option.bind_eq_bind, Option.bind_some]
        rw [within_eq_some (by omega), Option.bind_some, within_eq_some (by omega)]
        exact ih hnext.1 hnext.2
      · dsimp only
        rw [if_neg hlt, if_neg hlt]
        exact ih hfrac hdiv

theorem padChecked_eq (hscale : scale ≤ 10 ^ 8) (hfrac : frac < div) (hdiv : div < 10 ^ 9)
    (n : ℕ) : padChecked scale n frac div = some (pad scale n frac div) ∧
      pad scale n frac div < 10 ^ 9 := by
  induction n generalizing frac div with
  | zero => exact ⟨rfl, hfrac.trans hdiv⟩
  | succ n ih =>
    rw [padChecked, pad]
    by_cases hlt : div < scale
    · have hnext : frac * 10 < div * 10 ∧ div * 10 < 10 ^ 9 := by omega
      rw [if_pos hlt, if_pos hlt, within_eq_some (by omega)]
      simp only [Option.bind_eq_bind, Option.bind_some]
      rw [within_eq_some (by omega)]
      exact ih hnext.1 hnext.2
    · rw [if_neg hlt, if_neg hlt]
      exact ⟨rfl, hfrac.trans hdiv⟩

theorem fractionFromChecked_eq (hscale : scale ≤ 10 ^ 8) (p : Text) :
    fractionFromChecked scale p = some (fractionFrom scale p) ∧
      (fractionFrom scale p).1 < (fractionFrom scale p).2 ∧
      (fractionFrom scale p).2 < 10 ^ 9 := by
  by_cases hpoint : ∃ t, p = '.' :: t
  · obtain ⟨t, rfl⟩ := hpoint
    exact fractionChecked_eq hscale one_pos (by decide) t
  · have hnone : ∀ t, p = '.' :: t → False := fun t ht => hpoint ⟨t, ht⟩
    rw [fractionFromChecked, fractionFrom]
    · exact ⟨rfl, by decide, by decide⟩
    · exact hnone
    · exact hnone

/-- **Every value fits**, whatever the text. -/
theorem parseScaledChecked_eq (s : Text) (hscale : scale ≤ 10 ^ 8) :
    parseScaledChecked s scale = some (parseScaled s scale) := by
  obtain ⟨hwhole, hlt⟩ := wholeChecked_eq (by decide : 0 < 10 ^ 9) (sign s).2
  obtain ⟨hfraction, hfrac, hdiv⟩ := fractionFromChecked_eq hscale (whole 0 (sign s).2).2
  obtain ⟨hpad, hfill⟩ := padChecked_eq hscale hfrac hdiv 10
  have hproduct : (whole 0 (sign s).2).1 * scale ≤ 10 ^ 9 * 10 ^ 8 :=
    Nat.mul_le_mul hlt.le hscale
  rw [parseScaled_eq]
  simp only [parseScaledChecked]
  by_cases hstart : scale = 0 ∨ ((sign s).2.head?.bind digit).isNone = true
  · rw [if_pos hstart, if_pos hstart]
  · rw [if_neg hstart, if_neg hstart, hwhole]
    simp only [Option.bind_eq_bind, Option.bind_some]
    rw [hfraction, Option.bind_some, hpad, Option.bind_some, within_eq_some (by omega),
      Option.bind_some, within_eq_some (by omega), Option.bind_some]
    push_cast
    rfl

/-! ### The clamp -/

theorem clampPrice_spec (value : Int) :
    ((clampPrice value).1.toNat : Int) = min priceMax (max 0 value) ∧
      ((clampPrice value).2 = true ↔ value < 0 ∨ priceMax < value) := by
  have htoNat : ∀ v : Int, 0 ≤ v → v ≤ priceMax → ((BitVec.ofInt 32 v).toNat : Int) = v := by
    intro v hlo hhi
    rw [priceMax] at hhi
    rw [BitVec.toNat_ofInt]
    omega
  rw [clampPrice]
  split_ifs with hneg hbig
  · refine ⟨?_, iff_of_true rfl (.inl hneg)⟩
    rw [max_eq_left hneg.le]
    rfl
  · refine ⟨?_, iff_of_true rfl (.inr hbig)⟩
    rw [htoNat _ (by decide) le_rfl, max_eq_right (by omega), min_eq_left hbig.le]
  · refine ⟨?_, iff_of_false (by decide) (by omega)⟩
    rw [htoNat _ (by omega) (by omega), max_eq_right (by omega), min_eq_right (by omega)]

/-- What the parser makes of a decimal, against the number itself: the same, or both are above the
largest price, or both are negative. -/
theorem parseScaled_price (d : Decimal) {rest : Text} (h : d.Ends rest) :
    parseScaled (d.text ++ rest) priceScale = trunc (100 * d.rational) ∨
      (priceMax < parseScaled (d.text ++ rest) priceScale ∧
        priceMax < trunc (100 * d.rational)) ∨
      (parseScaled (d.text ++ rest) priceScale < 0 ∧ trunc (100 * d.rational) < 0) := by
  have htrunc := d.trunc_rational 2
  have hparse := parseScaled_text (k := 2) d h (by decide)
  have hcents : (10 : ℚ) ^ 2 = 100 := by norm_num
  rw [hcents] at htrunc
  rw [priceScale, show (100 : ℕ) = 10 ^ 2 from rfl, hparse, htrunc]
  by_cases hsmall : d.units < 10 ^ 9
  · exact .inl (by rw [Numeral.lead_eq_self (by decide) hsmall])
  · -- the integer part has been cut, and is still above the largest price
    have hlead : 10 ^ 8 ≤ Numeral.lead 10 8 d.units :=
      Numeral.pow_le_lead (by decide) (by omega)
    rw [priceMax]
    cases d.sign with
    | none | plus =>
      refine .inr (.inl ⟨?_, ?_⟩) <;> simp only [DecimalSign.apply] <;> omega
    | minus =>
      refine .inr (.inr ⟨?_, ?_⟩) <;> simp only [DecimalSign.apply] <;> omega

/-- **Price text reaches the fabric exactly or saturated.** A decimal arrives as the number of cents
it denotes, clamped, and the flag says whether it was; anything else is an error; and no value on
the way leaves its variable. -/
theorem price_exact_or_saturated (s : Text) :
    (∀ (d : Decimal) (rest : Text), s = d.text ++ rest → d.Ends rest →
      ((clampPrice (parseScaled s priceScale)).1.toNat : Int) =
        min priceMax (max 0 (trunc (100 * d.rational))) ∧
      ((clampPrice (parseScaled s priceScale)).2 = true ↔
        trunc (100 * d.rational) < 0 ∨ priceMax < trunc (100 * d.rational))) ∧
    ((¬∃ (d : Decimal) (rest : Text), s = d.text ++ rest ∧ d.Ends rest) →
      parseScaled s priceScale = parseError) ∧
    parseScaledChecked s priceScale = some (parseScaled s priceScale) := by
  refine ⟨?_, parseScaled_error priceScale, parseScaledChecked_eq s (by decide)⟩
  rintro d rest rfl hends
  have hprice := parseScaled_price d hends
  have hmax : (0 : Int) < priceMax := by decide
  obtain ⟨hvalue, hflag⟩ := clampPrice_spec (parseScaled (d.text ++ rest) priceScale)
  rw [hvalue, hflag]
  omega

end Fixed

end Fmma
