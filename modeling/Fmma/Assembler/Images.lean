import Fmma.Lib.PyFormat
import Fmma.Sim

/-!
# The images

The files of `write_outputs` that a memory is filled from: the `.hex` file, which the simulator
loads, and the contents of the `.mif` file, which the RAM on the chip is initialised with. The other
files have the same words in other spellings.
-/

namespace Fmma

open PyStr

/-- `MEM_WORDS`. -/
abbrev memWords : ℤ := 1024

/-! ### Writing -/

/-- The `.hex` file. -/
def hexFile (code : List Word) : Str :=
  code.flatMap fun w => zeroPadded 16 lowerDigit 8 w.toNat ++ ['\n']

/-- The line of the `.mif` file for a word at an address. -/
def mifWord (address : ℤ) (w : Word) : Str :=
  [' ', ' ', ' ', ' '] ++ (intText address ++ [' ', ':', ' '] ++
    (zeroPadded 16 upperDigit 8 w.toNat ++ [';']))

/-- The line of the `.mif` file for zeros between two addresses. -/
def mifZeros (first last : ℤ) : Str :=
  [' ', ' ', ' ', ' ', '['] ++ (intText first ++ ['.', '.'] ++ (intText last ++ [']', ' ', ':', ' ',
    '0', '0', '0', '0', '0', '0', '0', '0', ';']))

/-- The lines for the words of the program. -/
def mifProgram : ℤ → List Word → List Str
  | _, [] => []
  | address, w :: code => mifWord address w :: mifProgram (address + 1) code

/-- The contents of the `.mif` file: all words of the RAM. -/
def mifContents (base : ℤ) (code : List Word) : List Str :=
  let stop := base + code.length
  (if 0 < base then [mifZeros 0 (base - 1)] else []) ++ mifProgram base code ++
    if stop < memWords then [mifZeros stop (memWords - 1)] else []

/-! ### Reading -/

/-- `_load_hex`. -/
def loadHex (U : Unicode) (text : Str) : Option (List ℤ) := (words U.isSpace text).mapM U.hexInt

/-- `Cpu.load_program`, on the RAM. -/
def loadProgram : ℤ → List ℤ → (Addr → Word) → Addr → Word
  | _, [], mem => mem
  | base, w :: code, mem =>
    loadProgram (base + 1) code (Function.update mem (BitVec.ofInt 10 base) (BitVec.ofInt 32 w))

/-- An entry of a memory initialisation file: the value of the words from one address to another. -/
structure MifEntry where
  first : ℕ
  last : ℕ
  data : ℕ

namespace MifEntry

/-- What stands between two addresses, or an address and a value. -/
def isSep (c : Char) : Bool := c ∈ [' ', '[', ']', '.', ':', ';']

/-- An entry of the format: addresses are decimal and values are hexadecimal. -/
def read (line : Str) : Option MifEntry :=
  match words isSep line with
  | [address, data] => do
    let a ← ascii.digits 10 false 0 address
    return ⟨a, a, ← ascii.digits 16 false 0 data⟩
  | [first, last, data] => do
    return ⟨← ascii.digits 10 false 0 first, ← ascii.digits 10 false 0 last,
      ← ascii.digits 16 false 0 data⟩
  | _ => none

/-- The entry is for an address. -/
def Covers (e : MifEntry) (a : Addr) : Prop := e.first ≤ a.toNat ∧ a.toNat ≤ e.last

instance (e : MifEntry) (a : Addr) : Decidable (e.Covers a) := inferInstanceAs (Decidable (_ ∧ _))

end MifEntry

/-! ### The `.hex` file -/

theorem loadHex_hexFile {U : Unicode} (hU : U.ExtendsAscii) (code : List Word) :
    loadHex U (hexFile code) = some (code.map fun w => (w.toNat : ℤ)) := by
  have hdigits := digits_lower (b := 16) hU le_rfl
  have hnewline : U.isSpace '\n' = true := by
    rw [hU.isSpace _ (by decide)]
    decide
  induction code with
  | nil => rfl
  | cons w code ih =>
    have hspace : ∀ c ∈ zeroPadded 16 lowerDigit 8 w.toNat, U.isSpace c = false := fun _ hc =>
      hdigits.isSpace_of_mem hc
    rw [loadHex, hexFile, List.flatMap_cons, List.append_assoc, List.singleton_append,
      words_append_sep hspace (zeroPadded_ne_nil _ _ _ _) hnewline, List.mapM_cons,
      hexInt_zeroPadded hdigits]
    rw [loadHex, hexFile] at ih
    rw [ih]
    rfl

/-! ### The `.mif` file -/

namespace MifEntry

theorem isSep_digit :
    ∀ d : Fin 16, isSep (lowerDigit d) = false ∧ isSep (upperDigit d) = false := by
  decide

theorem isSep_natText (n : ℕ) : ∀ c ∈ natText n, isSep c = false := by
  intro c hc
  obtain ⟨d, rfl⟩ := mem_zeroPadded hc
  exact (isSep_digit (d.castLE (by decide))).1

theorem isSep_data (w : Word) : ∀ c ∈ zeroPadded 16 upperDigit 8 w.toNat, isSep c = false := by
  intro c hc
  obtain ⟨d, rfl⟩ := mem_zeroPadded hc
  exact (isSep_digit d).2

theorem digits_natText (n : ℕ) : ascii.digits 10 false 0 (natText n) = some n :=
  (digits_lower (b := 10) ascii_extendsAscii (by decide)).digits_zeroPadded (by decide) 0 n

theorem read_mifWord {a : ℤ} (ha : 0 ≤ a) (w : Word) :
    read (mifWord a w) = some ⟨a.toNat, a.toNat, w.toNat⟩ := by
  have hdigits := digits_upper (b := 16) ascii_extendsAscii le_rfl
  have hwords : words isSep (mifWord a w) =
      [natText a.toNat, zeroPadded 16 upperDigit 8 w.toNat] := by
    simp only [mifWord, intText_of_nonneg ha, List.cons_append, List.nil_append, List.append_assoc]
    rw [words_cons_sep rfl, words_cons_sep rfl, words_cons_sep rfl, words_cons_sep rfl,
      words_append_sep (isSep_natText _) (zeroPadded_ne_nil _ _ _ _) rfl, words_cons_sep rfl,
      words_cons_sep rfl, words_append_sep (isSep_data w) (zeroPadded_ne_nil _ _ _ _) rfl]
    rfl
  rw [read, hwords]
  simp only [digits_natText, hdigits.digits_zeroPadded (by decide)]
  rfl

theorem read_mifZeros {a b : ℤ} (ha : 0 ≤ a) (hb : 0 ≤ b) :
    read (mifZeros a b) = some ⟨a.toNat, b.toNat, 0⟩ := by
  have hwords : words isSep (mifZeros a b) =
      [natText a.toNat, natText b.toNat, ['0', '0', '0', '0', '0', '0', '0', '0']] := by
    simp only [mifZeros, intText_of_nonneg ha, intText_of_nonneg hb, List.cons_append,
      List.nil_append, List.append_assoc]
    rw [words_cons_sep rfl, words_cons_sep rfl, words_cons_sep rfl, words_cons_sep rfl,
      words_cons_sep rfl, words_append_sep (isSep_natText _) (zeroPadded_ne_nil _ _ _ _) rfl,
      words_cons_sep rfl, words_append_sep (isSep_natText _) (zeroPadded_ne_nil _ _ _ _) rfl]
    rfl
  rw [read, hwords]
  simp only [digits_natText]
  rfl

end MifEntry

/-! ### The RAM -/

/-- The word of a program at an address, and zero where it has none. -/
def imageAt (base : ℤ) (code : List Word) (a : Addr) : Word :=
  if base ≤ a.toNat then code.getD (a.toNat - base).toNat 0 else 0

theorem imageAt_head {base : ℤ} {a : Addr} (h : (a.toNat : ℤ) = base) (w : Word)
    (code : List Word) : imageAt base (w :: code) a = w := by
  have hzero : ((a.toNat : ℤ) - base).toNat = 0 := by omega
  rw [imageAt, if_pos h.ge, hzero, List.getD_cons_zero]

theorem imageAt_tail {base : ℤ} {a : Addr} (h : base < a.toNat) (w : Word) (code : List Word) :
    imageAt base (w :: code) a = imageAt (base + 1) code a := by
  have hsucc : ((a.toNat : ℤ) - base).toNat = ((a.toNat : ℤ) - (base + 1)).toNat + 1 := by omega
  have hle : base + 1 ≤ a.toNat := h
  rw [imageAt, imageAt, if_pos h.le, if_pos hle, hsucc, List.getD_cons_succ]

section Ram

variable {base : ℤ} {code : List Word}

/-- The addresses of a program. -/
def InProgram (base : ℤ) (code : List Word) (a : Addr) : Prop :=
  base ≤ a.toNat ∧ (a.toNat : ℤ) < base + code.length

instance (a : Addr) : Decidable (InProgram base code a) := inferInstanceAs (Decidable (_ ∧ _))

theorem not_inProgram_nil (a : Addr) : ¬InProgram base [] a := by
  simp [InProgram]

/-- An address of a program is the first one, or one of the rest. -/
theorem inProgram_cons (w : Word) (a : Addr) :
    InProgram base (w :: code) a ↔ (a.toNat : ℤ) = base ∨ InProgram (base + 1) code a := by
  simp only [InProgram, List.length_cons, Nat.cast_add, Nat.cast_one]
  omega

theorem InProgram.lt {a : Addr} (h : InProgram (base + 1) code a) : base < a.toNat := h.1

/-- **The loader** puts each word at its address and leaves the rest as it was. -/
theorem loadProgram_eq (hbase : 0 ≤ base) (hfits : base + code.length ≤ memWords)
    (mem : Addr → Word) (a : Addr) :
    loadProgram base (code.map fun w => (w.toNat : ℤ)) mem a =
      if InProgram base code a then imageAt base code a else mem a := by
  induction code generalizing base mem with
  | nil =>
    rw [if_neg (not_inProgram_nil a)]
    rfl
  | cons w code ih =>
    rw [List.length_cons, Nat.cast_add, Nat.cast_one, memWords] at hfits
    have hword : BitVec.ofInt 32 (w.toNat : ℤ) = w := by
      rw [BitVec.ofInt_natCast, BitVec.ofNat_toNat, BitVec.setWidth_eq]
    have hbase' : BitVec.ofInt 10 base = a ↔ (a.toNat : ℤ) = base := by
      have ha := a.isLt
      rw [← BitVec.toNat_inj, BitVec.toNat_ofInt]
      omega
    rw [List.map_cons, loadProgram, ih (by omega) (by rw [memWords]; omega), hword]
    by_cases hrest : InProgram (base + 1) code a
    · rw [if_pos hrest, if_pos ((inProgram_cons w a).mpr (.inr hrest)), imageAt_tail hrest.lt]
    · rw [if_neg hrest]
      by_cases hhead : (a.toNat : ℤ) = base
      · rw [if_pos ((inProgram_cons w a).mpr (.inl hhead)), imageAt_head hhead,
          hbase'.mpr hhead, Function.update_self]
      · rw [if_neg fun h => ((inProgram_cons w a).mp h).elim hhead hrest,
          Function.update_of_ne fun h => hhead (hbase'.mp h.symm)]

/-- The values that entries have for an address. -/
def valuesAt (entries : List MifEntry) (a : Addr) : List ℕ :=
  (entries.filter fun e => e.Covers a).map MifEntry.data

theorem valuesAt_append (e e' : List MifEntry) (a : Addr) :
    valuesAt (e ++ e') a = valuesAt e a ++ valuesAt e' a := by
  rw [valuesAt, List.filter_append, List.map_append]
  rfl

theorem valuesAt_singleton (e : MifEntry) (a : Addr) :
    valuesAt [e] a = if e.Covers a then [e.data] else [] := by
  rw [valuesAt, List.filter_singleton]
  split_ifs <;> simp_all

/-- **The lines of the program** have one value for each of its addresses. -/
theorem valuesAt_mifProgram (hbase : 0 ≤ base) (code : List Word) :
    ∃ entries, (mifProgram base code).mapM MifEntry.read = some entries ∧
      ∀ a, valuesAt entries a =
        if InProgram base code a then [(imageAt base code a).toNat] else [] := by
  induction code generalizing base with
  | nil =>
    refine ⟨[], rfl, fun a => ?_⟩
    rw [if_neg (not_inProgram_nil a)]
    rfl
  | cons w code ih =>
    obtain ⟨entries, hread, hvalues⟩ := ih (by omega : 0 ≤ base + 1)
    refine ⟨⟨base.toNat, base.toNat, w.toNat⟩ :: entries, ?_, fun a => ?_⟩
    · rw [mifProgram, List.mapM_cons, MifEntry.read_mifWord hbase, hread]
      rfl
    · have hhead : MifEntry.Covers ⟨base.toNat, base.toNat, w.toNat⟩ a ↔ (a.toNat : ℤ) = base := by
        simp only [MifEntry.Covers]
        omega
      rw [← List.singleton_append, valuesAt_append, valuesAt_singleton, hvalues a]
      by_cases hrest : InProgram (base + 1) code a
      · have hne : ¬(a.toNat : ℤ) = base := hrest.lt.ne'
        have hin : InProgram base (w :: code) a := (inProgram_cons w a).mpr (.inr hrest)
        rw [if_neg (hhead.not.mpr hne), if_pos hrest, if_pos hin, imageAt_tail hrest.lt,
          List.nil_append]
      · rw [if_neg hrest]
        by_cases heq : (a.toNat : ℤ) = base
        · have hin : InProgram base (w :: code) a := (inProgram_cons w a).mpr (.inl heq)
          rw [if_pos (hhead.mpr heq), if_pos hin, imageAt_head heq, List.append_nil]
        · rw [if_neg (hhead.not.mpr heq),
            if_neg fun h => ((inProgram_cons w a).mp h).elim heq hrest, List.append_nil]

end Ram

/-- The lines for zeros on one side of the program. -/
theorem valuesAt_zeros (c : Prop) [Decidable c] (first last : ℤ) (hfirst : 0 ≤ first)
    (hlast : c → 0 ≤ last) :
    ∃ entries, (if c then [mifZeros first last] else []).mapM MifEntry.read = some entries ∧
      ∀ a, valuesAt entries a = if c ∧ first ≤ a.toNat ∧ (a.toNat : ℤ) ≤ last then [0] else [] := by
  by_cases hc : c
  · refine ⟨[⟨first.toNat, last.toNat, 0⟩], ?_, fun a => ?_⟩
    · rw [if_pos hc, List.mapM_cons, MifEntry.read_mifZeros hfirst (hlast hc)]
      rfl
    · rw [valuesAt_singleton]
      refine if_congr ?_ rfl rfl
      have := hlast hc
      simp only [MifEntry.Covers, hc, true_and]
      omega
  · refine ⟨[], by rw [if_neg hc]; rfl, fun a => ?_⟩
    rw [if_neg fun h => hc h.1]
    rfl

/-- **The images agree.** What the simulator loads of the `.hex` file is the RAM of the `.mif` file:
each word of the RAM is in one entry of it, with the value that the simulator has there. -/
theorem images_agree {U : Unicode} (hU : U.ExtendsAscii) {base : ℤ} {code : List Word}
    (hbase : 0 ≤ base) (hfits : base + code.length ≤ memWords) :
    ∃ ws entries, loadHex U (hexFile code) = some ws ∧
      (mifContents base code).mapM MifEntry.read = some entries ∧
        ∀ a, valuesAt entries a = [(loadProgram base ws (fun _ => 0) a).toNat] := by
  obtain ⟨before, hbefore, hzero⟩ := valuesAt_zeros (0 < base) 0 (base - 1) le_rfl (by omega)
  obtain ⟨program, hprogram, hvalues⟩ := valuesAt_mifProgram hbase code
  obtain ⟨behind, hbehind, hzero'⟩ := valuesAt_zeros (base + code.length < memWords)
    (base + code.length) (memWords - 1) (by omega) (by omega)
  refine ⟨_, before ++ program ++ behind, loadHex_hexFile hU code, ?_, fun a => ?_⟩
  · rw [mifContents, List.mapM_append, List.mapM_append, hbefore, hprogram]
    simp only [Option.bind_eq_bind, Option.bind_some, hbehind]
    rfl
  · rw [valuesAt_append, valuesAt_append, hzero, hvalues, hzero', loadProgram_eq hbase hfits]
    have ha : (a.toNat : ℤ) ≤ memWords - 1 := by
      have := a.isLt
      rw [memWords]
      omega
    -- an address is in front of the program, in it, or behind it
    rcases lt_or_ge (a.toNat : ℤ) base with hlt | hge
    · have hout : ¬InProgram base code a := fun h => absurd h.1 (not_le.mpr hlt)
      rw [if_pos (by omega), if_neg hout, if_neg (by omega), if_neg hout]
      rfl
    · rcases lt_or_ge (a.toNat : ℤ) (base + code.length) with hlt | hstop
      · rw [if_neg (by omega), if_pos ⟨hge, hlt⟩, if_neg (by omega), if_pos ⟨hge, hlt⟩]
        rfl
      · have hout : ¬InProgram base code a := fun h => absurd h.2 (not_lt.mpr hstop)
        rw [if_neg (by omega), if_neg hout, if_pos ⟨by omega, hstop, ha⟩, if_neg hout]
        rfl

/-- The image of two words at the end of the RAM. -/
theorem images_agree_end :
    ∃ ws entries, loadHex ascii (hexFile [0x0001F12C, 0xCE00]) = some ws ∧
      (mifContents 1022 [0x0001F12C, 0xCE00]).mapM MifEntry.read = some entries ∧
        ∀ a, valuesAt entries a = [(loadProgram 1022 ws (fun _ => 0) a).toNat] :=
  images_agree ascii_extendsAscii (by decide) (by decide)

end Fmma
