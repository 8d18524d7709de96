import Fmma.App.Decimal

/-!
# Formatting and parsing

`fmma_format_scaled`, and that it is the inverse of `fmma_parse_scaled` where the parser does not
saturate. What is printed is a decimal, `decimalOf`, so one direction is what the parser makes of
that decimal, and the other is that a canonical decimal is the one that is printed for its value.
-/

namespace Fmma

namespace Text

/-- `%llu`. -/
def unsigned (n : ℕ) : Text := digits (Numeral.row (Numeral.width 10 n) n)

/-- `%0*llu`. -/
def padded (width n : ℕ) : Text := digits (Numeral.row (max width (Numeral.width 10 n)) n)

end Text

namespace Fixed

/-- The loop over `d`: how many digits the scale implies, in so many turns at most. -/
def scaleDigits : ℕ → ℕ → ℕ
  | 0, _ => 0
  | n + 1, d => if 1 < d then scaleDigits n (d / 10) + 1 else 0

/-- What `fmma_format_scaled` prints. (The magnitude of `INT64_MIN` overflows in the source.) -/
def formatText (value : Int) (scale : ℕ) : Text :=
  let scale := if scale = 0 then 1 else scale
  let neg : Text := if value < 0 then ['-'] else []
  let mag := value.natAbs
  let whole := mag / scale
  let frac := mag % scale
  let digits := scaleDigits 9 scale
  if 0 < digits then neg ++ (Text.unsigned whole ++ '.' :: Text.padded digits frac)
  else neg ++ Text.unsigned whole

/-- `fmma_format_scaled`: `snprintf` cuts the text to what fits in the buffer with a terminator. -/
def formatScaled (buflen : ℕ) (value : Int) (scale : ℕ) : Text :=
  (formatText value scale).take (buflen - 1)

example : formatScaled 24 (-350) priceScale = ['-', '3', '.', '5', '0'] := by decide

end Fixed

namespace Decimal

/-- The decimal that is printed for a value. -/
def ofScaled (value : Int) (k : ℕ) : Decimal where
  sign := if value < 0 then .minus else .none
  whole := Numeral.row (Numeral.width 10 (value.natAbs / 10 ^ k)) (value.natAbs / 10 ^ k)
  fraction := if k = 0 then none else some (Numeral.row k (value.natAbs % 10 ^ k))
  nonempty := by
    intro hnil
    have hlen := congrArg List.length hnil
    rw [Numeral.length_row] at hlen
    cases hlen

/-- A decimal with `k` places as it is usually written. -/
structure Canonical (k : ℕ) (d : Decimal) : Prop where
  sign : d.sign ≠ .plus
  lead : d.whole.length = 1 ∨ d.whole.head? ≠ some 0
  short : d.whole.length < 10
  places : ∃ f, d.fraction = some f ∧ f.length = k
  nonzero : d.sign = .minus → d.rational ≠ 0

variable {v : Int} {k : ℕ} {d : Decimal}

theorem value_row_width (n : ℕ) :
    Numeral.value (Numeral.row (Numeral.width 10 n) n : List (Fin 10)) = n := by
  rw [Numeral.value_row, Nat.mod_eq_of_lt (Numeral.lt_pow_width (by decide) n)]

theorem units_ofScaled (v : Int) (k : ℕ) : (ofScaled v k).units = v.natAbs / 10 ^ k :=
  value_row_width _

/-- With all its places written, they are the fraction. -/
theorem places_of_length (h : d.tail.length = k) : d.places k = Numeral.value d.tail := by
  rw [places, h, Nat.mul_div_cancel _ (Nat.pow_pos (by decide))]

theorem places_ofScaled (v : Int) (k : ℕ) : (ofScaled v k).places k = v.natAbs % 10 ^ k := by
  rcases Nat.eq_zero_or_pos k with rfl | hk
  · have hlt := (ofScaled v 0).places_lt 0
    rw [Nat.pow_zero] at hlt
    rw [Nat.pow_zero, Nat.mod_one]
    omega
  · have htail : (ofScaled v k).tail = Numeral.row k (v.natAbs % 10 ^ k) := by
      rw [tail, ofScaled]
      simp only [if_neg hk.ne', Option.getD_some]
    rw [places_of_length (by rw [htail, Numeral.length_row]), htail, Numeral.value_row,
      Nat.mod_mod]

/-- The sign of a value, and its magnitude. -/
theorem apply_ofScaled (v : Int) (k : ℕ) : (ofScaled v k).sign.apply (v.natAbs : Int) = v := by
  by_cases hneg : v < 0
  · simp only [ofScaled, if_pos hneg, DecimalSign.apply]
    omega
  · simp only [ofScaled, if_neg hneg, DecimalSign.apply]
    omega

end Decimal

namespace Fixed

open Decimal

variable {v : Int} {k : ℕ} {d : Decimal}

/-! ### What is printed -/

theorem scaleDigits_pow {n k : ℕ} (h : k ≤ n) : scaleDigits n (10 ^ k) = k := by
  induction n generalizing k with
  | zero =>
    rw [Nat.le_zero.mp h]
    rfl
  | succ n ih =>
    rw [scaleDigits]
    cases k with
    | zero => rfl
    | succ k =>
      have hdiv : 10 ^ (k + 1) / 10 = 10 ^ k := by
        rw [Nat.pow_succ, Nat.mul_div_cancel _ (by decide)]
      rw [if_pos (Nat.one_lt_pow k.succ_ne_zero (by decide)), hdiv,
        ih (Nat.le_of_succ_le_succ h)]

/-- **A decimal is printed.** -/
theorem formatText_eq (v : Int) (hk : k ≤ 9) : formatText v (10 ^ k) = (ofScaled v k).text := by
  have hscale : (if (10 : ℕ) ^ k = 0 then 1 else 10 ^ k) = 10 ^ k :=
    if_neg (Nat.pow_pos (by decide)).ne'
  have hsign : (ofScaled v k).sign.text = if v < 0 then ['-'] else [] := by
    rw [ofScaled]
    split_ifs <;> rfl
  rw [formatText]
  simp only [hscale, scaleDigits_pow hk, ← hsign]
  rcases Nat.eq_zero_or_pos k with rfl | hpos
  · rw [if_neg (lt_irrefl 0)]
    simp only [Decimal.text, ofScaled, fractionText, if_true, List.append_nil]
    rfl
  · have hmod : v.natAbs % 10 ^ k < 10 ^ k := Nat.mod_lt _ (Nat.pow_pos (by decide))
    have hwidth : max k (Numeral.width 10 (v.natAbs % 10 ^ k)) = k :=
      max_eq_left ((Numeral.width_le_iff (by decide) hpos).mpr hmod)
    rw [if_pos hpos, Text.padded, hwidth]
    simp only [Decimal.text, ofScaled, fractionText, if_neg hpos.ne']
    rfl

/-- A printed value has at most nineteen digits, a sign and a point. -/
theorem length_formatText (hk : k ≤ 9) (hlo : -2 ^ 63 < v) (hhi : v < 2 ^ 63) :
    (formatText v (10 ^ k)).length ≤ 21 := by
  have hmag : v.natAbs / 10 ^ k < 10 ^ (19 - k) := by
    rw [Nat.div_lt_iff_lt_mul (Nat.pow_pos (by decide)), ← Nat.pow_add,
      Nat.sub_add_cancel (hk.trans (by decide))]
    omega
  have hwidth := (Numeral.width_le_iff (by decide) (by omega)).mpr hmag
  have hsign : (ofScaled v k).sign.text.length ≤ 1 := by
    cases (ofScaled v k).sign <;> decide
  have hfraction : (fractionText (ofScaled v k).fraction).length ≤ k + 1 := by
    simp only [ofScaled]
    by_cases hzero : k = 0
    · rw [if_pos hzero]
      exact Nat.zero_le _
    · rw [if_neg hzero, fractionText, List.length_cons, Text.digits, List.length_map,
        Numeral.length_row]
  have hwhole : (Text.digits (ofScaled v k).whole).length ≤ 19 - k := by
    rw [Text.digits, List.length_map, ofScaled, Numeral.length_row]
    exact hwidth
  rw [formatText_eq v hk, Decimal.text, List.length_append, List.length_append]
  omega

/-- Nothing is cut off. -/
theorem formatScaled_eq (hk : k ≤ 9) (hlo : -2 ^ 63 < v) (hhi : v < 2 ^ 63) :
    formatScaled 24 v (10 ^ k) = formatText v (10 ^ k) :=
  List.take_of_length_le ((length_formatText hk hlo hhi).trans (by decide))

theorem formatScaled_of_abs_lt (hk : k ≤ 9) (hv : |v| < 10 ^ 9 * 10 ^ k) :
    formatScaled 24 v (10 ^ k) = formatText v (10 ^ k) := by
  have hpow : (10 : Int) ^ k ≤ 10 ^ 9 := pow_le_pow_right₀ (by decide) hk
  have hbound := abs_lt.mp hv
  exact formatScaled_eq hk (by omega) (by omega)

/-! ### There and back -/

/-- What is printed is parsed to the value, unless it saturates. -/
theorem parseScaled_formatText (hk : k ≤ 9) (hv : |v| < 10 ^ 9 * 10 ^ k) :
    parseScaled (formatText v (10 ^ k)) (10 ^ k) = v := by
  have hunits : (ofScaled v k).units < 10 ^ 9 := by
    rw [units_ofScaled, Nat.div_lt_iff_lt_mul (Nat.pow_pos (by decide))]
    rw [Int.abs_eq_natAbs] at hv
    exact_mod_cast hv
  have hparse := parseScaled_text (ofScaled v k) (ofScaled v k).ends_nil hk
  have hsum : ((v.natAbs / 10 ^ k : ℕ) : Int) * 10 ^ k + (v.natAbs % 10 ^ k : ℕ) = v.natAbs := by
    exact_mod_cast Nat.div_add_mod' v.natAbs (10 ^ k)
  rw [List.append_nil, Numeral.lead_eq_self (by decide) hunits, units_ofScaled,
    places_ofScaled, hsum, apply_ofScaled] at hparse
  rw [formatText_eq v hk, hparse]

theorem units_lt (h : d.Canonical k) : d.units < 10 ^ 9 :=
  (Numeral.value_lt d.whole).trans_le
    (Nat.pow_le_pow_right (by decide) (Nat.le_of_lt_succ h.short))

/-- The value of a canonical decimal. -/
theorem parseScaled_canonical (h : d.Canonical k) (hk : k ≤ 9) :
    parseScaled d.text (10 ^ k) =
      d.sign.apply ((d.units * 10 ^ k + Numeral.value d.tail : ℕ) : Int) := by
  obtain ⟨f, hf, hlen⟩ := h.places
  have htail : d.tail.length = k := by rw [tail, hf, Option.getD_some, hlen]
  have hunits := units_lt h
  have hparse := parseScaled_text d d.ends_nil hk
  rw [List.append_nil, Numeral.lead_eq_self (by decide) hunits, places_of_length htail] at hparse
  rw [hparse]
  push_cast
  rfl

theorem abs_apply (sign : DecimalSign) (n : ℕ) : |sign.apply (n : Int)| = n := by
  cases sign with
  | none | plus => exact Nat.abs_cast n
  | minus => exact (abs_neg _).trans (Nat.abs_cast n)

theorem abs_parseScaled_lt (h : d.Canonical k) (hk : k ≤ 9) :
    |parseScaled d.text (10 ^ k)| < 10 ^ 9 * 10 ^ k := by
  obtain ⟨f, hf, hlen⟩ := h.places
  have hunits := units_lt h
  have hplaces : Numeral.value d.tail < 10 ^ k := by
    rw [tail, hf, Option.getD_some, ← hlen]
    exact Numeral.value_lt f
  have hle : (d.units + 1) * 10 ^ k ≤ 10 ^ 9 * 10 ^ k := Nat.mul_le_mul_right _ hunits
  rw [Nat.add_mul, Nat.one_mul] at hle
  rw [parseScaled_canonical h hk, abs_apply]
  exact_mod_cast (by omega : d.units * 10 ^ k + Numeral.value d.tail < 10 ^ 9 * 10 ^ k)

/-- A canonical decimal that is negative has a negative value. -/
theorem pos_of_minus (h : d.Canonical k) (hminus : d.sign = .minus) :
    0 < d.units * 10 ^ k + Numeral.value d.tail := by
  have hpow : 0 < 10 ^ k := Nat.pow_pos (by decide)
  by_contra hzero
  have hfraction : Numeral.value d.tail = 0 := by omega
  have hunits : d.units = 0 := by
    by_contra hne
    have hle := Nat.le_mul_of_pos_left (10 ^ k) (Nat.pos_of_ne_zero hne)
    omega
  refine h.nonzero hminus ?_
  rw [rational, magnitude, hunits, hfraction, hminus]
  simp [DecimalSign.apply]

/-- The number of the integer part has as many digits as are written. -/
theorem width_units (h : d.Canonical k) : Numeral.width 10 d.units = d.whole.length := by
  obtain ⟨w, ws, hw⟩ := List.exists_cons_of_ne_nil d.nonempty
  rw [units, hw, List.length_cons]
  refine Numeral.width_value (by decide) (h.lead.imp (fun hone => ?_) fun hne hzero => hne ?_)
  · rw [hw, List.length_cons] at hone
    exact List.length_eq_zero_iff.mp (Nat.succ.inj hone)
  · rw [hw, List.head?_cons]
    exact congrArg some (Fin.ext hzero)

/-- **A canonical decimal is printed for its value.** -/
theorem ofScaled_canonical (h : d.Canonical k) (hk : 0 < k) (hk' : k ≤ 9) :
    ofScaled (parseScaled d.text (10 ^ k)) k = d := by
  obtain ⟨f, hf, hlen⟩ := h.places
  have htail : d.tail = f := by rw [tail, hf, Option.getD_some]
  have hlt : Numeral.value f < 10 ^ k := hlen ▸ Numeral.value_lt f
  have hparse := parseScaled_canonical h hk'
  rw [htail] at hparse
  generalize parseScaled d.text (10 ^ k) = v at hparse
  -- the magnitude is cut where the point was
  have hmag : v.natAbs = d.units * 10 ^ k + Numeral.value f := by
    rw [hparse]
    cases d.sign <;> simp only [DecimalSign.apply] <;> omega
  have hdiv : v.natAbs / 10 ^ k = d.units := by
    rw [hmag, Nat.add_comm, Nat.add_mul_div_right _ _ (Nat.pow_pos (by decide)),
      Nat.div_eq_of_lt hlt, Nat.zero_add]
  have hmod : v.natAbs % 10 ^ k = Numeral.value f := by
    rw [hmag, Nat.add_comm, Nat.add_mul_mod_self_right, Nat.mod_eq_of_lt hlt]
  have hsign : (if v < 0 then DecimalSign.minus else .none) = d.sign := by
    have hpos := pos_of_minus h
    rw [htail] at hpos
    cases hs : d.sign with
    | plus => exact absurd hs h.sign
    | none =>
      rw [hs] at hparse
      exact if_neg (by rw [hparse]; exact not_lt.mpr (Int.natCast_nonneg _))
    | minus =>
      -- there is no negative zero, so that the sign comes back
      rw [hs] at hparse
      have hlt0 : v < 0 := by
        rw [hparse]
        exact Int.neg_neg_of_pos (Int.natCast_pos.mpr (hpos hs))
      exact if_pos hlt0
  have hwhole : Numeral.row (Numeral.width 10 (v.natAbs / 10 ^ k)) (v.natAbs / 10 ^ k) =
      d.whole := by
    rw [hdiv, width_units h]
    exact Numeral.row_value d.whole
  have hfraction : (if k = 0 then none else some (Numeral.row k (v.natAbs % 10 ^ k))) =
      d.fraction := by
    rw [if_neg hk.ne', hmod, hf, ← hlen, Numeral.row_value]
  cases d
  simp only [ofScaled, hsign, hwhole, hfraction]

/-- **Formatting and parsing are inverse.** What is printed for a value is parsed to it, unless its
integer part has ten digits; the text fits in 24 bytes with its terminator; and a canonical decimal
is what is printed for its parse. -/
theorem format_parse_inverse (hk : k ≤ 9) :
    (∀ v : Int, |v| < 10 ^ 9 * 10 ^ k → parseScaled (formatScaled 24 v (10 ^ k)) (10 ^ k) = v) ∧
    (∀ v : Int, -2 ^ 63 < v → v < 2 ^ 63 → (formatText v (10 ^ k)).length + 1 ≤ 24 ∧
      formatScaled 24 v (10 ^ k) = formatText v (10 ^ k)) ∧
    (0 < k → ∀ d : Decimal, d.Canonical k →
      formatScaled 24 (parseScaled d.text (10 ^ k)) (10 ^ k) = d.text) := by
  refine ⟨fun v hv => ?_, fun v hlo hhi => ?_, fun hpos d hd => ?_⟩
  · rw [formatScaled_of_abs_lt hk hv, parseScaled_formatText hk hv]
  · have hlen := length_formatText hk hlo hhi
    exact ⟨by omega, formatScaled_eq hk hlo hhi⟩
  · rw [formatScaled_of_abs_lt hk (abs_parseScaled_lt hd hk), formatText_eq _ hk,
      ofScaled_canonical hd hpos hk]

/-- Two places. -/
theorem format_parse_inverse_cents :
    (∀ v : Int, |v| < 10 ^ 9 * 10 ^ 2 → parseScaled (formatScaled 24 v (10 ^ 2)) (10 ^ 2) = v) ∧
    (∀ v : Int, -2 ^ 63 < v → v < 2 ^ 63 → (formatText v (10 ^ 2)).length + 1 ≤ 24 ∧
      formatScaled 24 v (10 ^ 2) = formatText v (10 ^ 2)) ∧
    (0 < 2 → ∀ d : Decimal, d.Canonical 2 →
      formatScaled 24 (parseScaled d.text (10 ^ 2)) (10 ^ 2) = d.text) :=
  format_parse_inverse (by decide)

end Fixed

end Fmma
