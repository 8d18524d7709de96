import Fmma.App.Fixed
import Fmma.Lib.Numeral
import Mathlib.Data.Rat.Floor

/-!
# Decimals

A decimal as it is written, the rational it denotes, and what `fmma_parse_scaled` makes of it: the
number with as many places as the scale has, its integer part cut to the leading nine digits.
-/

namespace Fmma

/-- Ten is a base. -/
instance ten_neZero : NeZero 10 := ⟨by decide⟩

/-- The sign a decimal may begin with. -/
inductive DecimalSign
  | none
  | plus
  | minus
  deriving DecidableEq

/-- A decimal: an optional sign, digits, and optionally a point and more digits. -/
structure Decimal where
  sign : DecimalSign
  whole : List (Fin 10)
  fraction : Option (List (Fin 10))
  nonempty : whole ≠ []

namespace Text

def digitChar (d : Fin 10) : Char := Char.ofNat (48 + d)

/-- A row of digits as it is written. -/
def digits (ds : List (Fin 10)) : Text := ds.map digitChar

theorem digits_cons_append (d : Fin 10) (ds : List (Fin 10)) (t : Text) :
    digits (d :: ds) ++ t = digitChar d :: (digits ds ++ t) := rfl

/-- The text does not go on with a digit. -/
def NoDigit (t : Text) : Prop := ∀ c ∈ t.head?, Fixed.digit c = none

end Text

namespace DecimalSign

def text : DecimalSign → Text
  | none => []
  | plus => ['+']
  | minus => ['-']

/-- The sign of a number. -/
def apply {α : Type*} [Neg α] : DecimalSign → α → α
  | minus, x => -x
  | none, x | plus, x => x

end DecimalSign

namespace Decimal

variable (d : Decimal)

def fractionText : Option (List (Fin 10)) → Text
  | none => []
  | some f => '.' :: Text.digits f

/-- The decimal as it is written. -/
def text : Text := d.sign.text ++ (Text.digits d.whole ++ fractionText d.fraction)

/-- What may follow a decimal: no digit, and no point when it has none. -/
def Ends (rest : Text) : Prop :=
  Text.NoDigit rest ∧ (d.fraction = none → ∀ c ∈ rest.head?, c ≠ '.')

/-- A decimal may be all there is. -/
theorem ends_nil : d.Ends [] := by
  refine ⟨?_, ?_⟩
  · rintro c ⟨⟩
  · rintro - c ⟨⟩

/-- The digits behind the point. -/
def tail : List (Fin 10) := d.fraction.getD []

/-- The integer part. -/
def units : ℕ := Numeral.value d.whole

/-- The first `k` places behind the point, as a number. -/
def places (k : ℕ) : ℕ := Numeral.value d.tail * 10 ^ k / 10 ^ d.tail.length

/-- The rational without its sign. -/
def magnitude : ℚ := d.units + Numeral.value d.tail / 10 ^ d.tail.length

/-- The rational a decimal denotes. -/
def rational : ℚ := d.sign.apply d.magnitude

/-! ### The places of a decimal -/

theorem places_lt (k : ℕ) : d.places k < 10 ^ k := by
  rw [places, Nat.div_lt_iff_lt_mul (Nat.pow_pos (by decide)), Nat.mul_comm]
  exact Nat.mul_lt_mul_of_pos_left (Numeral.value_lt d.tail) (Nat.pow_pos (by decide))

/-- The places are those that are written, and zeros. -/
theorem places_eq (k : ℕ) : d.places k =
    Numeral.value (d.tail.take k) * 10 ^ (k - d.tail.length) := by
  rw [places, Numeral.value_take]
  rcases le_total k d.tail.length with h | h
  · have hsplit : 10 ^ d.tail.length = 10 ^ k * 10 ^ (d.tail.length - k) := by
      rw [← Nat.pow_add, Nat.add_sub_cancel' h]
    rw [Nat.sub_eq_zero_of_le h, Nat.pow_zero, Nat.mul_one, hsplit, Nat.mul_comm (10 ^ k),
      Nat.mul_div_mul_right _ _ (Nat.pow_pos (by decide))]
  · have hsplit : 10 ^ k = 10 ^ (k - d.tail.length) * 10 ^ d.tail.length := by
      rw [← Nat.pow_add, Nat.sub_add_cancel h]
    rw [Nat.sub_eq_zero_of_le h, Nat.pow_zero, Nat.div_one, hsplit, ← Nat.mul_assoc,
      Nat.mul_div_cancel _ (Nat.pow_pos (by decide))]

theorem magnitude_nonneg : 0 ≤ d.magnitude := by
  rw [magnitude]
  positivity

/-- The integer part and the places of a magnitude. -/
theorem floor_magnitude (k : ℕ) : ⌊(10 : ℚ) ^ k * d.magnitude⌋ = d.units * 10 ^ k + d.places k := by
  have hden : (10 : ℚ) ^ d.tail.length ≠ 0 := by positivity
  have hsum : (10 : ℚ) ^ k * d.magnitude =
      (d.units * 10 ^ k : ℕ) + (Numeral.value d.tail * 10 ^ k : ℕ) /
        (10 ^ d.tail.length : ℕ) := by
    rw [magnitude]
    push_cast
    ring
  rw [hsum, Int.floor_natCast_add, Rat.floor_natCast_div_natCast]
  push_cast [places]
  rfl

end Decimal

/-! ### Truncation -/

/-- Toward zero. -/
def trunc (x : ℚ) : ℤ := if 0 ≤ x then ⌊x⌋ else ⌈x⌉

theorem trunc_neg (x : ℚ) : trunc (-x) = -trunc x := by
  rcases lt_trichotomy x 0 with h | rfl | h
  · rw [trunc, trunc, if_pos (by linarith), if_neg (by linarith), Int.floor_neg]
  · simp [trunc]
  · rw [trunc, trunc, if_neg (by linarith), if_pos h.le, Int.ceil_neg]

theorem Decimal.trunc_rational (d : Decimal) (k : ℕ) :
    trunc (10 ^ k * d.rational) = d.sign.apply ((d.units : ℤ) * 10 ^ k + d.places k) := by
  have hmag : trunc (10 ^ k * d.magnitude) = d.units * 10 ^ k + d.places k := by
    have hnonneg : (0 : ℚ) ≤ 10 ^ k * d.magnitude := mul_nonneg (by positivity) d.magnitude_nonneg
    rw [trunc, if_pos hnonneg, d.floor_magnitude]
  rw [rational]
  cases d.sign with
  | none | plus => exact hmag
  | minus =>
    change trunc (10 ^ k * -d.magnitude) = -_
    rw [mul_neg, trunc_neg, hmag]

/-! ### The loops over the digits -/

namespace Fixed

open Text

variable {rest : Text} {k : ℕ}

theorem digit_digitChar (d : Fin 10) : digit (digitChar d) = some d.val := by
  revert d
  decide

theorem exists_digitChar {c : Char} {n : ℕ} (h : digit c = some n) :
    ∃ d : Fin 10, c = digitChar d := by
  rw [digit] at h
  split_ifs at h with hc
  have hlo : 48 ≤ c.toNat := hc.1
  have hhi : c.toNat ≤ 57 := hc.2
  refine ⟨⟨c.toNat - 48, by omega⟩, ?_⟩
  have hsum : 48 + (c.toNat - 48) = c.toNat := by omega
  rw [digitChar]
  change c = Char.ofNat (48 + (c.toNat - 48))
  rw [hsum, Char.ofNat_toNat]

theorem whole_cons (d : Fin 10) (acc : ℕ) (t : Text) : whole acc (digitChar d :: t) =
    whole (if acc < wholeSaturate then acc * 10 + d else acc) t := by
  rw [whole, digit_digitChar]

/-- The loop stops where the digits do. -/
theorem whole_rest (h : NoDigit rest) (acc : ℕ) : whole acc rest = (acc, rest) := by
  cases rest with
  | nil => rfl
  | cons c t => rw [whole, h c rfl]

theorem whole_digits (h : NoDigit rest) (ds : List (Fin 10)) (acc : ℕ) :
    whole acc (digits ds ++ rest) = (ds.foldl (fun (n : ℕ) (d : Fin 10) =>
      if n < wholeSaturate then n * 10 + d.val else n) acc, rest) := by
  induction ds generalizing acc with
  | nil => exact whole_rest h acc
  | cons d ds ih =>
    rw [digits_cons_append, whole_cons]
    exact ih _

/-- **The integer part** is cut to its leading nine digits. -/
theorem whole_lead (h : NoDigit rest) (ds : List (Fin 10)) :
    whole 0 (digits ds ++ rest) = (Numeral.lead 10 8 (Numeral.value ds), rest) := by
  rw [whole_digits h, ← Numeral.gather_eq_lead (by decide)]
  rfl

theorem fraction_cons (d : Fin 10) (scale frac div : ℕ) (t : Text) :
    fraction scale frac div (digitChar d :: t) =
      if div < scale then fraction scale (frac * 10 + d) (div * 10) t
      else fraction scale frac div t := by
  rw [fraction, digit_digitChar]

theorem fraction_rest (h : NoDigit rest) (scale frac div : ℕ) :
    fraction scale frac div rest = (frac, div) := by
  cases rest with
  | nil => rfl
  | cons c t => rw [fraction, h c rfl]

/-- The loop takes digits as long as the scale has places for them. -/
theorem fraction_digits (h : NoDigit rest) (ds : List (Fin 10)) (frac : ℕ) {j : ℕ} (hj : j ≤ k) :
    fraction (10 ^ k) frac (10 ^ j) (digits ds ++ rest) =
      (frac * 10 ^ (ds.take (k - j)).length + Numeral.value (ds.take (k - j)),
        10 ^ (j + (ds.take (k - j)).length)) := by
  induction ds generalizing frac j with
  | nil =>
    rw [List.take_nil]
    exact (fraction_rest h _ _ _).trans (by simp)
  | cons d ds ih =>
    rw [digits_cons_append, fraction_cons]
    rcases hj.lt_or_eq with hlt | rfl
    · obtain ⟨m, hm⟩ : ∃ m, k - j = m + 1 := ⟨k - j - 1, by omega⟩
      have hm' : k - (j + 1) = m := by omega
      rw [if_pos (Nat.pow_lt_pow_right (by decide) hlt), ← Nat.pow_succ, ih _ hlt, hm, hm',
        List.take_succ_cons, Numeral.value_cons, List.length_cons]
      refine Prod.ext ?_ ?_
      · change _ * 10 ^ _ + _ = _ * 10 ^ _ + (_ * 10 ^ _ + _)
        ring
      · change 10 ^ _ = 10 ^ _
        congr 1
        omega
    · rw [if_neg (lt_irrefl _), ih _ le_rfl, Nat.sub_self, List.take_zero, List.take_zero]

theorem pad_pow (n frac : ℕ) {j : ℕ} (hj : j ≤ k) (hn : k ≤ j + n) :
    pad (10 ^ k) n frac (10 ^ j) = frac * 10 ^ (k - j) := by
  induction n generalizing frac j with
  | zero =>
    have hk : k - j = 0 := by omega
    rw [pad, hk, Nat.pow_zero, Nat.mul_one]
  | succ n ih =>
    rw [pad]
    rcases hj.lt_or_eq with hlt | rfl
    · obtain ⟨m, hm⟩ : ∃ m, k - j = m + 1 := ⟨k - j - 1, by omega⟩
      have hm' : k - (j + 1) = m := by omega
      rw [if_pos (Nat.pow_lt_pow_right (by decide) hlt), ← Nat.pow_succ, ih _ hlt (by omega), hm,
        hm', Nat.pow_succ]
      ring
    · rw [if_neg (lt_irrefl _), Nat.sub_self, Nat.pow_zero, Nat.mul_one]

/-- **The fraction** is cut or filled up to the places of the scale. -/
theorem pad_fraction (d : Decimal) (h : NoDigit rest) (hk : k ≤ 10) :
    pad (10 ^ k) 10 (fraction (10 ^ k) 0 1 (digits d.tail ++ rest)).1
      (fraction (10 ^ k) 0 1 (digits d.tail ++ rest)).2 = d.places k := by
  have hloop := fraction_digits h d.tail 0 (Nat.zero_le k)
  rw [Nat.pow_zero, Nat.zero_mul, Nat.zero_add, Nat.zero_add, Nat.sub_zero] at hloop
  have hlen := List.length_take_le k d.tail
  have hmin : k - (d.tail.take k).length = k - d.tail.length := by
    rw [List.length_take]
    omega
  rw [hloop, pad_pow _ _ hlen (by omega), hmin, d.places_eq]

/-! ### The parser -/

theorem sign_of_ne {c : Char} (hminus : c ≠ '-') (hplus : c ≠ '+') (t : Text) :
    sign (c :: t) = (false, c :: t) := by
  rw [sign]
  · rintro t' ⟨⟩
    exact hminus rfl
  · rintro t' ⟨⟩
    exact hplus rfl

theorem digitChar_ne_sign (d : Fin 10) : digitChar d ≠ '-' ∧ digitChar d ≠ '+' := by
  revert d
  decide

/-- The sign of a text that goes on with a digit. -/
theorem sign_text (s : DecimalSign) (d : Fin 10) (t : Text) :
    sign (s.text ++ digitChar d :: t) = (decide (s = .minus), digitChar d :: t) := by
  cases s with
  | none => exact sign_of_ne (digitChar_ne_sign d).1 (digitChar_ne_sign d).2 t
  | plus | minus => rfl

/-- From the point on: `frac` and `div`. -/
def fractionFrom (scale : ℕ) : Text → ℕ × ℕ
  | '.' :: p => fraction scale 0 1 p
  | _ => (0, 1)

theorem parseScaled_eq (s : Text) (scale : ℕ) : parseScaled s scale =
    if scale = 0 ∨ ((sign s).2.head?.bind digit).isNone then parseError
    else
      let (whole, p) := whole 0 (sign s).2
      let v : Int := whole * scale +
        pad scale 10 (fractionFrom scale p).1 (fractionFrom scale p).2
      if (sign s).1 then -v else v := rfl

theorem fractionFrom_of_ne {c : Char} (h : c ≠ '.') (scale : ℕ) (t : Text) :
    fractionFrom scale (c :: t) = (0, 1) := by
  rw [fractionFrom]
  rintro p ⟨⟩
  exact h rfl

/-- **The fraction of a decimal** has the places of the scale. -/
theorem pad_fractionFrom (d : Decimal) (h : d.Ends rest) (hk : k ≤ 10) :
    pad (10 ^ k) 10 (fractionFrom (10 ^ k) (Decimal.fractionText d.fraction ++ rest)).1
      (fractionFrom (10 ^ k) (Decimal.fractionText d.fraction ++ rest)).2 = d.places k := by
  obtain ⟨hdigit, hpoint⟩ := h
  have hpad := pad_fraction d hdigit hk
  cases hf : d.fraction with
  | some f =>
    have htail : d.tail = f := by rw [Decimal.tail, hf, Option.getD_some]
    rwa [htail] at hpad
  | none =>
    -- no point: the loop that is not run leaves what it would leave on no digits
    have htail : d.tail = [] := by rw [Decimal.tail, hf, Option.getD_none]
    rw [htail, digits, List.map_nil, List.nil_append, fraction_rest hdigit] at hpad
    have hskip : fractionFrom (10 ^ k) (Decimal.fractionText none ++ rest) = (0, 1) := by
      cases rest with
      | nil => rfl
      | cons c t => exact fractionFrom_of_ne (hpoint hf c rfl) _ t
    rw [hskip]
    exact hpad

/-- **What is parsed.** The integer part is cut to nine digits, the fraction to the places of the
scale. -/
theorem parseScaled_text (d : Decimal) (h : d.Ends rest) (hk : k ≤ 9) :
    parseScaled (d.text ++ rest) (10 ^ k) =
      d.sign.apply ((Numeral.lead 10 8 d.units : ℤ) * 10 ^ k + d.places k) := by
  obtain ⟨w, ws, hw⟩ := List.exists_cons_of_ne_nil d.nonempty
  -- the digits of the integer part, as the sign leaves them
  have hsign : sign (d.text ++ rest) = (decide (d.sign = .minus),
      digits d.whole ++ (Decimal.fractionText d.fraction ++ rest)) := by
    rw [Decimal.text, hw, List.append_assoc, List.append_assoc, digits_cons_append, sign_text]
  have hstart : ¬((10 : ℕ) ^ k = 0 ∨ ((digits d.whole ++
      (Decimal.fractionText d.fraction ++ rest)).head?.bind digit).isNone = true) := by
    rw [hw, digits_cons_append, List.head?_cons, Option.bind_some, digit_digitChar]
    rintro (hc | hc)
    · exact absurd hc (Nat.pow_pos (by decide)).ne'
    · cases hc
  have hfraction : NoDigit (Decimal.fractionText d.fraction ++ rest) := by
    cases d.fraction with
    | none => exact h.1
    | some f =>
      rintro c ⟨⟩
      rfl
  simp only [parseScaled_eq, hsign, if_neg hstart, whole_lead hfraction,
    pad_fractionFrom d h (hk.trans (by decide))]
  cases d.sign with
  | none | plus => simp [DecimalSign.apply, Decimal.units]
  | minus => simp [DecimalSign.apply, Decimal.units]

/-! ### What begins with a decimal -/

theorem exists_digits (t : Text) : ∃ ds rest, t = digits ds ++ rest ∧ NoDigit rest := by
  induction t with
  | nil => exact ⟨[], [], rfl, by rintro c ⟨⟩⟩
  | cons c t ih =>
    cases hc : digit c with
    | none =>
      refine ⟨[], c :: t, rfl, ?_⟩
      rintro c' ⟨⟩
      exact hc
    | some n =>
      obtain ⟨d, rfl⟩ := exists_digitChar hc
      obtain ⟨ds, rest, rfl, hrest⟩ := ih
      exact ⟨d :: ds, rest, rfl, hrest⟩

/-- Digits, and what follows them, begin with a decimal. -/
theorem exists_decimal (s : DecimalSign) {p : Text} (h : (p.head?.bind digit).isSome = true) :
    ∃ d : Decimal, ∃ rest, s.text ++ p = d.text ++ rest ∧ d.Ends rest := by
  obtain ⟨ds, rest, rfl, hrest⟩ := exists_digits p
  have hne : ds ≠ [] := by
    rintro rfl
    obtain ⟨n, hn⟩ := Option.isSome_iff_exists.mp h
    obtain ⟨c, hc, hdigit⟩ := Option.bind_eq_some_iff.mp hn
    rw [hrest c hc] at hdigit
    cases hdigit
  by_cases hpoint : ∃ t, rest = '.' :: t
  · obtain ⟨t, rfl⟩ := hpoint
    obtain ⟨f, rest, rfl, hend⟩ := exists_digits t
    refine ⟨⟨s, ds, some f, hne⟩, rest, ?_, hend, ?_⟩
    · simp only [Decimal.text, Decimal.fractionText, List.append_assoc, List.cons_append]
    · rintro ⟨⟩
  · refine ⟨⟨s, ds, none, hne⟩, rest, ?_, hrest, ?_⟩
    · simp only [Decimal.text, Decimal.fractionText, List.append_assoc, List.nil_append]
    · rintro - c hc rfl
      cases rest with
      | nil => cases hc
      | cons c' t =>
        cases hc
        exact hpoint ⟨t, rfl⟩

theorem exists_sign (s : Text) : ∃ s' : DecimalSign, s = s'.text ++ (sign s).2 := by
  unfold sign
  split
  · exact ⟨.minus, rfl⟩
  · exact ⟨.plus, rfl⟩
  · exact ⟨.none, rfl⟩

/-- **No number.** What does not begin with a decimal is an error. -/
theorem parseScaled_error {s : Text} (scale : ℕ)
    (h : ¬∃ d : Decimal, ∃ rest, s = d.text ++ rest ∧ d.Ends rest) :
    parseScaled s scale = parseError := by
  obtain ⟨s', hs⟩ := exists_sign s
  have hnone : (((sign s).2.head?.bind digit).isNone) = true := by
    by_contra hsome
    rw [Option.isNone_iff_eq_none, ← ne_eq, Option.ne_none_iff_isSome] at hsome
    obtain ⟨d, rest, htext, hends⟩ := exists_decimal s' hsome
    exact h ⟨d, rest, hs.trans htext, hends⟩
  exact if_pos (.inr hnone)

end Fixed

end Fmma
