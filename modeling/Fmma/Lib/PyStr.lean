import Mathlib.Data.List.DropRight

/-!
# Python strings

The methods of `str` that a scanner of lines uses, and `int` with base 0, on lists of characters.
What they know about Unicode comes as a parameter: the tables of the interpreter, or those of ASCII
alone. (Interpreters from 3.11 on refuse numbers of more than 4300 digits; this one does not.)
-/

namespace PyStr

/-- A string. -/
abbrev Str := List Char

/-- The character database: `isspace`, `isalnum`, the classes of `isidentifier`, the value of a
decimal digit, and the case mappings. -/
structure Unicode where
  isSpace : Char → Bool
  isAlnum : Char → Bool
  xidStart : Char → Bool
  xidContinue : Char → Bool
  decimal : Char → Option ℕ
  upper : Str → Str
  lower : Str → Str
  xidStart_hash : xidStart '#' = false

/-- A line ends at the character (`\r\n` is one end in a file that is read as text). -/
def isLineEnd (c : Char) : Bool :=
  c ∈ ['\n', '\r', '\x0b', '\x0c', '\x1c', '\x1d', '\x1e', '\x85', '\u2028', '\u2029']

/-- `splitlines`: an end of line after the last line starts no other. -/
def splitlines : Str → List Str
  | [] => []
  | c :: rest =>
    if isLineEnd c then [] :: splitlines rest
    else
      match splitlines rest with
      | [] => [[c]]
      | line :: lines => (c :: line) :: lines

/-- `strip(chars)`. -/
def stripChars (drop : Char → Bool) (text : Str) : Str :=
  (text.dropWhile drop).rdropWhile drop

/-- `re.split` at each separator, without the empty parts. -/
def words (sep : Char → Bool) (text : Str) : List Str :=
  (text.splitOnP sep).filter fun w => !w.isEmpty

namespace Unicode

variable (U : Unicode)

/-- `strip`. -/
def strip (text : Str) : Str := stripChars U.isSpace text

/-- `isidentifier`. -/
def isIdentifier : Str → Bool
  | [] => false
  | c :: rest => (U.xidStart c || c = '_') && rest.all U.xidContinue

/-- A character that begins a name: that of an identifier, or of a word in ASCII. -/
def startsName (c : Char) : Bool := U.xidStart c || c.isAlpha || c = '_'

/-! ### `int` -/

/-- The value of a digit. -/
def digit (c : Char) : Option ℕ :=
  match U.decimal c with
  | some d => some d
  | none =>
    if 'a' ≤ c ∧ c ≤ 'f' then some (c.toNat - 'a'.toNat + 10)
    else if 'A' ≤ c ∧ c ≤ 'F' then some (c.toNat - 'A'.toNat + 10)
    else none

/-- Digits, and single underscores between them, after the number `n` of those before. -/
def digits (base : ℕ) : Bool → ℕ → Str → Option ℕ
  | afterDigit, n, [] => if afterDigit then some n else none
  | afterDigit, n, c :: rest =>
    if c = '_' then if afterDigit then digits base false n rest else none
    else
      match U.digit c with
      | some d => if d < base then digits base true (n * base + d) rest else none
      | none => none

/-- Digits after a prefix, which an underscore may follow. -/
def prefixed (base : ℕ) (text : Str) : Option ℕ :=
  match text with
  | '_' :: rest => U.digits base false 0 rest
  | _ => U.digits base false 0 text

/-- A number without a sign: a decimal one has no leading zeros, unless it is zero. -/
def unsigned (text : Str) : Option ℕ :=
  match text with
  | z :: x :: rest =>
    if U.decimal z = some 0 then
      if x = 'x' ∨ x = 'X' then U.prefixed 16 rest
      else if x = 'o' ∨ x = 'O' then U.prefixed 8 rest
      else if x = 'b' ∨ x = 'B' then U.prefixed 2 rest
      else (U.digits 10 false 0 text).filter (· = 0)
    else U.digits 10 false 0 text
  | _ => U.digits 10 false 0 text

/-- `int(text, 0)`. -/
def int (text : Str) : Option ℤ :=
  match U.strip text with
  | '-' :: rest => (U.unsigned rest).map fun n => -(n : ℤ)
  | '+' :: rest => (U.unsigned rest).map fun n => (n : ℤ)
  | text => (U.unsigned text).map fun n => (n : ℤ)

end Unicode

/-- The tables of ASCII. -/
def ascii : Unicode where
  isSpace := fun c => c ∈ [' ', '\t', '\n', '\x0b', '\x0c', '\r', '\x1c', '\x1d', '\x1e', '\x1f']
  isAlnum := Char.isAlphanum
  xidStart := Char.isAlpha
  xidContinue := fun c => c.isAlphanum || c = '_'
  decimal := fun c => if c.isDigit then some (c.toNat - '0'.toNat) else none
  upper := List.map Char.toUpper
  lower := List.map Char.toLower
  xidStart_hash := rfl

example : ascii.int ['-', '0', 'x', '_', 'F', 'f'] = some (-255) := by decide

/-! ### Separators -/

theorem not_sep_of_mem_splitOnP {sep : Char → Bool} {text w : Str} (h : w ∈ text.splitOnP sep) :
    ∀ c ∈ w, sep c = false := by
  induction text generalizing w with
  | nil =>
    obtain rfl : w = [] := by simpa using h
    exact fun _ hc => absurd hc List.not_mem_nil
  | cons c rest ih =>
    rw [List.splitOnP_cons_eq_if_modifyHead] at h
    by_cases hc : sep c
    · rw [if_pos hc] at h
      rcases List.mem_cons.mp h with rfl | h
      · exact fun _ hd => absurd hd List.not_mem_nil
      · exact ih h
    · rw [if_neg hc] at h
      cases hparts : rest.splitOnP sep with
      | nil => exact absurd hparts (List.splitOnP_ne_nil sep rest)
      | cons first parts =>
        rw [hparts, List.modifyHead_cons] at h
        rw [hparts] at ih
        rcases List.mem_cons.mp h with rfl | h
        · intro d hd
          rcases List.mem_cons.mp hd with rfl | hd
          · exact Bool.eq_false_iff.mpr hc
          · exact ih List.mem_cons_self d hd
        · exact ih (List.mem_cons_of_mem first h)

/-- A word has no separator. -/
theorem not_sep_of_mem_words {sep : Char → Bool} {text w : Str} (h : w ∈ words sep text) :
    ∀ c ∈ w, sep c = false := not_sep_of_mem_splitOnP (List.mem_of_mem_filter h)

/-- What stands before a separator is the first word. -/
theorem words_append_sep {sep : Char → Bool} {w : Str} (h : ∀ c ∈ w, sep c = false) (hne : w ≠ [])
    {s : Char} (hs : sep s = true) (rest : Str) :
    words sep (w ++ s :: rest) = w :: words sep rest := by
  rw [words, List.splitOnP_append_cons_of_forall_mem h s hs, List.filter_cons_of_pos, words]
  simpa using hne

theorem words_cons_sep {sep : Char → Bool} {s : Char} (hs : sep s = true) (rest : Str) :
    words sep (s :: rest) = words sep rest := by
  rw [words, List.splitOnP_cons_eq_if_modifyHead, if_pos hs]
  rfl

theorem words_eq_singleton {sep : Char → Bool} {w : Str} (h : ∀ c ∈ w, sep c = false)
    (hne : w ≠ []) : words sep w = [w] := by
  rw [words, List.splitOnP_eq_singleton h, List.filter_cons_of_pos, List.filter_nil]
  simpa using hne

/-- What is dropped behind a text that begins and ends with something else. -/
theorem stripChars_append {drop : Char → Bool} {text pad : Str} {a z : Char}
    (hhead : text.head? = some a) (ha : drop a = false) (hlast : text.getLast? = some z)
    (hz : drop z = false) (hpad : ∀ c ∈ pad, drop c = true) :
    stripChars drop (text ++ pad) = text := by
  obtain ⟨rest, rfl⟩ : ∃ rest, text = a :: rest := List.head?_eq_some_iff.mp hhead
  obtain ⟨front, hfront⟩ := List.getLast?_eq_some_iff.mp hlast
  rw [stripChars, List.cons_append, List.dropWhile_cons_of_neg (Bool.eq_false_iff.mp ha),
    ← List.cons_append, List.rdropWhile, List.reverse_append,
    List.dropWhile_append_of_pos fun c hc => hpad c (List.mem_reverse.mp hc), hfront,
    List.reverse_append, List.reverse_singleton, List.singleton_append,
    List.dropWhile_cons_of_neg (Bool.eq_false_iff.mp hz)]
  simp

/-- There is nothing to strip from a text without what is dropped. -/
theorem stripChars_eq_self {drop : Char → Bool} {text : Str} (h : ∀ c ∈ text, drop c = false) :
    stripChars drop text = text := by
  have hfront : text.dropWhile drop = text := by
    cases text with
    | nil => rfl
    | cons c rest =>
      rw [List.dropWhile_cons_of_neg]
      exact Bool.eq_false_iff.mp (h c List.mem_cons_self)
  rw [stripChars, hfront, List.rdropWhile_eq_self_iff]
  intro hne
  exact Bool.eq_false_iff.mp (h _ (List.getLast_mem hne))

/-! ### Names and numbers -/

/-- What begins a name is no blank, no digit and no sign. -/
def Unicode.Sound (U : Unicode) : Prop :=
  ∀ c, U.startsName c = true → U.isSpace c = false ∧ U.decimal c = none ∧ c ≠ '+' ∧ c ≠ '-'

theorem ascii_sound : ascii.Sound := by
  intro c hc
  have hblank : ∀ d ∈ [' ', '\t', '\n', '\x0b', '\x0c', '\r', '\x1c', '\x1d', '\x1e', '\x1f'],
      ascii.startsName d = false := by simp [Unicode.startsName, ascii]
  have hspace : ascii.isSpace c = false := by
    rw [Bool.eq_false_iff]
    intro hmem
    rw [hblank c (of_decide_eq_true hmem)] at hc
    cases hc
  have hdigit : c.isDigit = false := by
    by_contra hd
    have hletter : c.isAlpha = true ∨ c = '_' := by simpa [Unicode.startsName, ascii] using hc
    -- the codes of the letters and of the digits
    have hcode : (decide (c.val ≥ 65 ∧ c.val ≤ 90) || decide (c.val ≥ 97) && decide (c.val ≤ 122)) =
        true ∨ c = '_' := hletter
    have hcode' : (decide (c.val ≥ 48) && decide (c.val ≤ 57)) = true := Bool.of_not_eq_false hd
    simp [UInt32.le_iff_toNat_le, Char.ext_iff, ← UInt32.toNat_inj] at hcode hcode'
    omega
  refine ⟨hspace, by simp [ascii, hdigit], ?_, ?_⟩
  · rintro rfl
    exact absurd hc (by decide)
  · rintro rfl
    exact absurd hc (by decide)

/-- What is left of a text that begins with no blank begins as the text does. -/
theorem Unicode.strip_cons {U : Unicode} {c : Char} {rest : Str} (hc : U.isSpace c = false) :
    ∃ rest', U.strip (c :: rest) = c :: rest' := by
  have hfront : (c :: rest).dropWhile U.isSpace = c :: rest :=
    List.dropWhile_cons_of_neg (Bool.eq_false_iff.mp hc)
  have hne : (c :: rest).rdropWhile U.isSpace ≠ [] := by
    intro hnil
    rw [List.rdropWhile_eq_nil_iff] at hnil
    rw [hnil c List.mem_cons_self] at hc
    cases hc
  obtain ⟨d, rest', hstrip⟩ := List.exists_cons_of_ne_nil hne
  have hprefix := List.rdropWhile_prefix U.isSpace (c :: rest)
  rw [hstrip, List.cons_prefix_cons] at hprefix
  exact ⟨rest', by rw [Unicode.strip, stripChars, hfront, hstrip, hprefix.1]⟩

/-- A decimal number begins with a digit. -/
theorem Unicode.digits_eq_none {U : Unicode} {c : Char} {rest : Str} (hc : U.decimal c = none) :
    U.digits 10 false 0 (c :: rest) = none := by
  -- a letter is a digit of a larger base at most
  have hlarge : ∀ d, U.digit c = some d → ¬d < 10 := by
    intro d hd
    rw [Unicode.digit, hc] at hd
    simp only at hd
    split_ifs at hd
    all_goals
      have hvalue := Option.some_inj.mp hd
      omega
  rw [Unicode.digits]
  by_cases hunderscore : c = '_'
  · rw [if_pos hunderscore]
    rfl
  · rw [if_neg hunderscore]
    cases hd : U.digit c with
    | none => rfl
    | some d => exact if_neg (hlarge d hd)

/-- **A name is no number.** -/
theorem Unicode.Sound.int_eq_none {U : Unicode} (hU : U.Sound) {c : Char} {rest : Str}
    (hc : U.startsName c = true) : U.int (c :: rest) = none := by
  obtain ⟨hspace, hdecimal, hplus, hminus⟩ := hU c hc
  obtain ⟨rest', hstrip⟩ : ∃ rest', U.strip (c :: rest) = c :: rest' := Unicode.strip_cons hspace
  have hdigits : U.digits 10 false 0 (c :: rest') = none := Unicode.digits_eq_none hdecimal
  have hunsigned : U.unsigned (c :: rest') = none := by
    rw [Unicode.unsigned.eq_def]
    cases rest' with
    | nil => exact hdigits
    | cons x rest' =>
      simp only [hdecimal, hdigits]
      rfl
  rw [Unicode.int, hstrip]
  split
  · next heq => exact absurd (List.cons.inj heq).1 hminus
  · next heq => exact absurd (List.cons.inj heq).1 hplus
  · rw [hunsigned]
    rfl

end PyStr
