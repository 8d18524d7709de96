import Fmma.Lib.Numeral
import Fmma.Lib.PyStr

/-!
# Numbers as Python writes them

The format specifications of numbers, and what `int` reads of them. `int` knows the digits of all
scripts; that it knows those of ASCII is all that is used of the tables.
-/

namespace PyStr

/-! ### Writing -/

/-- The digits of the formats `b`, `d` and `x`. -/
def lowerDigit (d : ℕ) : Char := Char.ofNat (if d < 10 then 48 + d else 87 + d)

/-- The digits of the format `X`. -/
def upperDigit (d : ℕ) : Char := Char.ofNat (if d < 10 then 48 + d else 55 + d)

/-- The last `k` digits of a number in a base. -/
def lastDigits (b : ℕ) (chr : ℕ → Char) : ℕ → ℕ → Str
  | 0, _ => []
  | k + 1, n => lastDigits b chr k (n / b) ++ [chr (n % b)]

/-- A number in a base, with zeros in front of it up to a width. -/
def zeroPadded (b : ℕ) (chr : ℕ → Char) (width n : ℕ) : Str :=
  lastDigits b chr (max width (Numeral.width b n)) n

/-- `str` of a natural number. -/
def natText (n : ℕ) : Str := zeroPadded 10 lowerDigit 0 n

/-- `str` of an integer. -/
def intText (v : ℤ) : Str := if v < 0 then '-' :: natText v.natAbs else natText v.natAbs

theorem intText_of_nonneg {v : ℤ} (hv : 0 ≤ v) : intText v = natText v.toNat := by
  rw [intText, if_neg (not_lt.mpr hv)]
  exact congrArg natText (by omega)

/-- The format `+d`. -/
def signedText (v : ℤ) : Str := if v < 0 then '-' :: natText v.natAbs else '+' :: natText v.natAbs

/-- The alignment of a number: blanks in front of it up to a width. -/
def rjust (width : ℕ) (text : Str) : Str := List.replicate (width - text.length) ' ' ++ text

/-- The alignment of a text: blanks behind it up to a width. -/
def ljust (width : ℕ) (text : Str) : Str := text ++ List.replicate (width - text.length) ' '

/-! ### `int` with base 16 -/

namespace Unicode

variable (U : Unicode)

/-- A number in base 16 without a sign, with a prefix or without. -/
def hexUnsigned (text : Str) : Option ℕ :=
  match text with
  | z :: x :: rest =>
    if U.decimal z = some 0 ∧ (x = 'x' ∨ x = 'X') then U.prefixed 16 rest
    else U.digits 16 false 0 text
  | _ => U.digits 16 false 0 text

/-- `int(text, 16)`. -/
def hexInt (text : Str) : Option ℤ :=
  match U.strip text with
  | '-' :: rest => (U.hexUnsigned rest).map fun n => -(n : ℤ)
  | '+' :: rest => (U.hexUnsigned rest).map fun n => (n : ℤ)
  | text => (U.hexUnsigned text).map fun n => (n : ℤ)

end Unicode

/-! ### Tables that extend those of ASCII -/

/-- What the tables say of ASCII is what those of ASCII say. -/
structure Unicode.ExtendsAscii (U : Unicode) : Prop where
  isSpace : ∀ c : Char, c.toNat < 128 → U.isSpace c = ascii.isSpace c
  isAlnum : ∀ c : Char, c.toNat < 128 → U.isAlnum c = ascii.isAlnum c
  decimal : ∀ c : Char, c.toNat < 128 → U.decimal c = ascii.decimal c
  upper : ∀ text : Str, (∀ c ∈ text, c.toNat < 128) → U.upper text = ascii.upper text

theorem ascii_extendsAscii : ascii.ExtendsAscii :=
  ⟨fun _ _ => rfl, fun _ _ => rfl, fun _ _ => rfl, fun _ _ => rfl⟩

/-- What `int` and a scanner of words have to know of the digits of a base. -/
structure Digits (U : Unicode) (b : ℕ) (chr : ℕ → Char) : Prop where
  digit : ∀ d < b, U.digit (chr d) = some d
  plain : ∀ d < b, chr d ∉ ['_', '+', '-', 'x', 'X']
  isSpace : ∀ d < b, U.isSpace (chr d) = false

theorem digits_ascii (chr : ℕ → Char) (h : ∀ d : Fin 16, (chr d).toNat < 128 ∧
    ascii.digit (chr d) = some d.val ∧ chr d ∉ ['_', '+', '-', 'x', 'X'] ∧
      ascii.isSpace (chr d) = false)
    {U : Unicode} (hU : U.ExtendsAscii) {b : ℕ} (hb : b ≤ 16) : Digits U b chr where
  digit d hd := by
    obtain ⟨hlt, hdigit, -, -⟩ := h ⟨d, hd.trans_le hb⟩
    rw [Unicode.digit, hU.decimal _ hlt]
    exact hdigit
  plain d hd := (h ⟨d, hd.trans_le hb⟩).2.2.1
  isSpace d hd := by
    obtain ⟨hlt, -, -, hspace⟩ := h ⟨d, hd.trans_le hb⟩
    rw [hU.isSpace _ hlt]
    exact hspace

theorem digits_lower {U : Unicode} (hU : U.ExtendsAscii) {b : ℕ} (hb : b ≤ 16) :
    Digits U b lowerDigit := digits_ascii lowerDigit (by decide) hU hb

theorem digits_upper {U : Unicode} (hU : U.ExtendsAscii) {b : ℕ} (hb : b ≤ 16) :
    Digits U b upperDigit := digits_ascii upperDigit (by decide) hU hb

section Read

variable {U : Unicode} {b : ℕ} {chr : ℕ → Char}

/-! ### Reading -/

/-- A row of digits as text. -/
def digitText (chr : ℕ → Char) (ds : List (Fin b)) : Str := ds.map fun d : Fin b => chr d

theorem lastDigits_eq [NeZero b] (chr : ℕ → Char) (k n : ℕ) :
    lastDigits b chr k n = digitText chr (Numeral.row k n : List (Fin b)) := by
  induction k generalizing n with
  | zero => rfl
  | succ k ih =>
    rw [lastDigits, ih, Numeral.row, digitText, digitText, List.map_append]
    rfl

theorem length_lastDigits (k n : ℕ) : (lastDigits b chr k n).length = k := by
  induction k generalizing n with
  | zero => rfl
  | succ k ih => rw [lastDigits, List.length_append, ih, List.length_singleton]

/-- A row of digits is read as its number. -/
theorem Digits.digits_row (h : Digits U b chr) (ds : List (Fin b)) {after : Bool}
    (hne : after = true ∨ ds ≠ []) (n : ℕ) :
    U.digits b after n (digitText chr ds) = some (ds.foldl (fun n d => n * b + d.val) n) := by
  induction ds generalizing after n with
  | nil =>
    obtain rfl : after = true := hne.resolve_right fun h => h rfl
    rfl
  | cons d ds ih =>
    have hunderscore : chr d ≠ '_' := fun heq => h.plain d d.isLt (heq ▸ List.mem_cons_self)
    rw [digitText, List.map_cons, Unicode.digits, if_neg hunderscore,
      h.digit d d.isLt]
    simp only [if_pos d.isLt]
    exact ih (.inl rfl) (n * b + d.val)

theorem Digits.digits_eq (h : Digits U b chr) {ds : List (Fin b)} (hne : ds ≠ []) :
    U.digits b false 0 (digitText chr ds) = some (Numeral.value ds) :=
  h.digits_row ds (.inr hne) 0

theorem mem_zeroPadded [NeZero b] {width n : ℕ} {c : Char} (hc : c ∈ zeroPadded b chr width n) :
    ∃ d : Fin b, c = chr d := by
  rw [zeroPadded, lastDigits_eq] at hc
  obtain ⟨d, -, rfl⟩ := List.mem_map.mp hc
  exact ⟨d, rfl⟩

theorem Digits.isSpace_of_mem (h : Digits U b chr) [NeZero b] {width n : ℕ} {c : Char}
    (hc : c ∈ zeroPadded b chr width n) : U.isSpace c = false := by
  obtain ⟨d, rfl⟩ := mem_zeroPadded hc
  exact h.isSpace d d.isLt

theorem zeroPadded_ne_nil (b : ℕ) (chr : ℕ → Char) (width n : ℕ) :
    zeroPadded b chr width n ≠ [] := by
  refine List.ne_nil_of_length_pos ?_
  rw [zeroPadded, length_lastDigits]
  exact (Nat.succ_pos _).trans_le (le_max_right _ _)

/-- A number that fits has as many digits as the format says. -/
theorem length_zeroPadded (hb : 1 < b) {width n : ℕ} (hwidth : 0 < width)
    (hn : n < b ^ width) : (zeroPadded b chr width n).length = width := by
  rw [zeroPadded, length_lastDigits]
  exact max_eq_left ((Numeral.width_le_iff hb hwidth).mpr hn)

theorem Digits.digits_zeroPadded (h : Digits U b chr) (hb : 1 < b) [NeZero b] (width n : ℕ) :
    U.digits b false 0 (zeroPadded b chr width n) = some n := by
  have hne : (Numeral.row (max width (Numeral.width b n)) n : List (Fin b)) ≠ [] := by
    have hpos := zeroPadded_ne_nil b chr width n
    rwa [zeroPadded, lastDigits_eq, digitText, ne_eq, List.map_eq_nil_iff] at hpos
  have hlt : n < b ^ max width (Numeral.width b n) :=
    (Numeral.lt_pow_width hb n).trans_le (Nat.pow_le_pow_right hb.le (le_max_right _ _))
  rw [zeroPadded, lastDigits_eq, h.digits_eq hne, Numeral.value_row, Nat.mod_eq_of_lt hlt]

/-- A digit with a small value is a decimal digit. -/
theorem Unicode.decimal_of_digit {c : Char} {d : ℕ} (h : U.digit c = some d) (hd : d < 10) :
    U.decimal c = some d := by
  rw [Unicode.digit] at h
  split at h
  · next hdecimal => rw [hdecimal, h]
  · split_ifs at h
    all_goals
      have hvalue := Option.some_inj.mp h
      omega

/-- There is nothing to strip from a row of digits. -/
theorem Digits.strip_zeroPadded (h : Digits U b chr) [NeZero b] (width n : ℕ) :
    U.strip (zeroPadded b chr width n) = zeroPadded b chr width n :=
  stripChars_eq_self fun _ hc => h.isSpace_of_mem hc

theorem Digits.plain_of_mem (h : Digits U b chr) [NeZero b] {width n : ℕ} {c : Char}
    (hc : c ∈ zeroPadded b chr width n) : c ∉ ['_', '+', '-', 'x', 'X'] := by
  obtain ⟨d, rfl⟩ := mem_zeroPadded hc
  exact h.plain d d.isLt

/-- **A decimal number** is read as itself. -/
theorem unsigned_natText (hU : U.ExtendsAscii) (n : ℕ) : U.unsigned (natText n) = some n := by
  have hdigits := digits_lower (b := 10) hU (by decide)
  have hread : U.digits 10 false 0 (natText n) = some n :=
    hdigits.digits_zeroPadded (by decide) 0 n
  have hrow : natText n =
      digitText lowerDigit (Numeral.row (Numeral.width 10 n) n : List (Fin 10)) := by
    rw [natText, zeroPadded, Nat.zero_max, lastDigits_eq]
  by_cases hn : n = 0
  · subst hn
    exact hread
  · obtain ⟨d, ds, hds, hd⟩ := Numeral.exists_row_width (b := 10) (by decide) hn
    have hdecimal : U.decimal (lowerDigit d) ≠ some 0 := by
      rw [Unicode.decimal_of_digit (hdigits.digit d d.isLt) d.isLt]
      exact fun h => hd (Option.some_inj.mp h)
    rw [hds, digitText, List.map_cons] at hrow
    rw [hrow] at hread ⊢
    cases hrest : ds.map fun d : Fin 10 => lowerDigit d with
    | nil =>
      rw [hrest] at hread
      exact hread
    | cons x rest =>
      rw [hrest] at hread
      rw [Unicode.unsigned, if_neg hdecimal, hread]

/-- What `int` makes of a text without blanks and signs. -/
theorem int_of_unsigned {text : Str} {n : ℕ} (hstrip : U.strip text = text)
    (hplus : '+' ∉ text) (hminus : '-' ∉ text) (h : U.unsigned text = some n) :
    U.int text = some (n : ℤ) := by
  rw [Unicode.int, hstrip]
  split
  · exact absurd List.mem_cons_self hminus
  · exact absurd List.mem_cons_self hplus
  · rw [h]
    rfl

theorem int_natText (hU : U.ExtendsAscii) (n : ℕ) : U.int (natText n) = some (n : ℤ) := by
  have hdigits := digits_lower (b := 10) hU (by decide)
  refine int_of_unsigned (hdigits.strip_zeroPadded 0 n) ?_ ?_ (unsigned_natText hU n)
  · exact fun hc => hdigits.plain_of_mem hc (by decide)
  · exact fun hc => hdigits.plain_of_mem hc (by decide)

/-- The digits of a decimal number, gathered one by one. -/
theorem foldlM_natText (hU : U.ExtendsAscii) (n : ℕ) :
    (natText n).foldlM (fun n c => (U.decimal c).map fun v => n * 10 + v) 0 = some n := by
  have hdigits := digits_lower (b := 10) hU (by decide)
  have hrow (ds : List (Fin 10)) (k : ℕ) :
      (digitText lowerDigit ds).foldlM (fun n c => (U.decimal c).map fun v => n * 10 + v) k =
        some (ds.foldl (fun n d => n * 10 + d.val) k) := by
    induction ds generalizing k with
    | nil => rfl
    | cons d ds ih =>
      rw [digitText, List.map_cons, List.foldlM_cons,
        Unicode.decimal_of_digit (hdigits.digit d d.isLt) d.isLt]
      exact ih (k * 10 + d.val)
  rw [natText, zeroPadded, Nat.zero_max, lastDigits_eq, hrow]
  exact congrArg some (Numeral.value_row_width (by decide) n)

/-- `int(text, 16)` reads a number of the formats `x` and `X`. -/
theorem hexInt_zeroPadded (h : Digits U 16 chr) (width n : ℕ) :
    U.hexInt (zeroPadded 16 chr width n) = some (n : ℤ) := by
  have hread := h.digits_zeroPadded (by decide) width n
  have hplain (c : Char) (hc : c ∈ zeroPadded 16 chr width n) := h.plain_of_mem hc
  have hunsigned : U.hexUnsigned (zeroPadded 16 chr width n) = some n := by
    rw [Unicode.hexUnsigned.eq_def]
    split
    · next z x rest htext =>
      have hx := hplain x (htext ▸ List.mem_cons_of_mem z List.mem_cons_self)
      simp only [List.mem_cons, not_or] at hx
      rw [if_neg (by tauto), hread]
    · exact hread
  rw [Unicode.hexInt, h.strip_zeroPadded]
  split
  · next htext => exact absurd (by decide) (hplain '-' (htext ▸ List.mem_cons_self))
  · next htext => exact absurd (by decide) (hplain '+' (htext ▸ List.mem_cons_self))
  · rw [hunsigned]
    rfl

end Read

end PyStr
