import Fmma.Assembler.GuardRails
import Fmma.Lib.PyFormat

/-!
# The listing

The text that the decoder has for a word, and the line of the listing that shows it. Such a line
without its first columns is a line of source text: the instruction, and the rest as a comment. What
the assembler makes of it is the word again, if the word is the encoding of an instruction.
-/

namespace Fmma

open PyStr

/-! ### The text of a word -/

/-- The keys of `ALU_OPCODES`. -/
def AluOp.name : AluOp → Str
  | .AND => ['A', 'N', 'D']
  | .OR => ['O', 'R']
  | .XOR => ['X', 'O', 'R']
  | .ADD => ['A', 'D', 'D']
  | .ADDU => ['A', 'D', 'D', 'U']
  | .ADDC => ['A', 'D', 'D', 'C']
  | .LSH => ['L', 'S', 'H']
  | .SUB => ['S', 'U', 'B']
  | .SUBC => ['S', 'U', 'B', 'C']
  | .CMP => ['C', 'M', 'P']
  | .ASH => ['A', 'S', 'H']
  | .MUL => ['M', 'U', 'L']
  | .MOV => ['M', 'O', 'V']

/-- The keys of `CONDITIONS`. -/
def Cond.name : Cond → Str
  | .EQ => ['E', 'Q']
  | .NE => ['N', 'E']
  | .LT => ['L', 'T']
  | .GE => ['G', 'E']
  | .LE => ['L', 'E']
  | .UC => ['U', 'C']

/-- A register as it is written. -/
def registerText (r : RegId) : Str := 'R' :: natText r.toNat

/-- The name of an operation, or of an opcode that is not in the table. -/
def opText (op : Option AluOp) (opcode : BitVec 4) : Str :=
  match op with
  | some op => op.name
  | none => '?' :: zeroPadded 16 upperDigit 0 opcode.toNat

/-- The name of a condition, or of a code that is not in the table. -/
def condText (cond : BitVec 4) : Str :=
  match condByCode cond with
  | some cond => cond.name
  | none => '?' :: zeroPadded 2 lowerDigit 4 cond.toNat

/-- A mnemonic and two operands. -/
def twoOperands (m a b : Str) : Str := m ++ ' ' :: (a ++ ',' :: ' ' :: b)

/-- `decode(word).text`. -/
def displayText (word : Word) : Str :=
  match decode word with
  | .halt => ['H', 'A', 'L', 'T', ' ', '(', 'w', 'a', 'i', 't', ' ', 'f', 'o', 'r', ' ', 'a', ' ',
      'n', 'o', 'n', '-', 'z', 'e', 'r', 'o', ' ', 'w', 'o', 'r', 'd', ')']
  | .stor rs ra => twoOperands ['S', 'T', 'O', 'R'] (registerText rs) (registerText ra)
  | .load rd ra => twoOperands ['L', 'O', 'A', 'D'] (registerText rd) (registerText ra)
  | .jump cond rt => 'J' :: (condText cond ++ ' ' :: registerText rt)
  | .undefined => ['u', 'n', 'd', 'e', 'f', 'i', 'n', 'e', 'd', ' ', '0', '1', '0', '0', ' ', 'f',
      'o', 'r', 'm', ' ', '(', 'i', 'n', 's', 't', 'r', '[', '7', ':', '4', ']', '='] ++
      (zeroPadded 2 lowerDigit 4 (word.extractLsb' 4 4).toNat ++
        [')', ' ', '-', ' ', 'C', 'P', 'U', ' ', 's', 't', 'a', 'l', 'l', 's'])
  | .branch cond disp => 'B' :: (condText cond ++ ' ' :: signedText disp)
  | .rtype op rd rs =>
    twoOperands (opText op (word.extractLsb' 4 4)) (registerText rd) (registerText rs)
  | .itype op rd imm =>
    twoOperands (opText op (word.extractLsb' 12 4)) (registerText rd) ('#' :: natText imm.toNat)

/-- The line of the listing for a word at an address, and the source that it was made from. -/
def listingLine (address : ℤ) (word : Word) (source : Str) : Str :=
  [' ', ' '] ++ rjust 4 (intText address) ++ [' ', ' ', '0', 'x'] ++
    zeroPadded 16 upperDigit 8 word.toNat ++ [' ', ' '] ++
    (ljust 28 (displayText word) ++ [' ', ' ', ';', ' '] ++ source)

/-- The code in the listing: a line for each word, from the base address on. -/
def listing (base : ℤ) : List Word → List Str → List Str
  | w :: code, source :: sources =>
    listingLine base w source :: listing (base + 1) code sources
  | _, _ => []

/-! ### Words that are encoded again -/

/-- A word that encodes the instruction of the first one. -/
def Reencodes (w w' : Word) : Prop := ∃ i : Instr, i.decoded = decode w ∧ i.encode = .ok w'

/-- A word is the encoding of the instruction it is decoded into, or another word is. -/
theorem eq_of_encode {i : Instr} {w w' : Word} (hi : i.decoded = decode w)
    (henc : i.encode = .ok w') (h : ∃ j : Instr, j.encode = .ok w) : w' = w := by
  obtain ⟨j, hj⟩ := h
  have hsame : i = j := Instr.decoded_injective (hi.trans (Instr.decode_encode hj))
  exact Except.ok.inj (henc.symm.trans (hsame ▸ hj))

theorem encoded_again {code code' : List Word}
    (h : List.Forall₂ Reencodes code code') :
    (∀ w ∈ code, (decode w).Known) ∧ code'.map decode = code.map decode ∧
      (∀ w ∈ code', ∃ i : Instr, i.encode = .ok w) ∧
        ((∀ w ∈ code, ∃ i : Instr, i.encode = .ok w) → code' = code) := by
  induction h with
  | nil => simp
  | @cons w w' code code' hw _ ih =>
    obtain ⟨i, hi, henc⟩ := hw
    obtain ⟨hknown, hdecode, hencoded, hsame⟩ := ih
    refine ⟨List.forall_mem_cons.mpr ⟨hi ▸ i.known_decoded, hknown⟩, ?_,
      List.forall_mem_cons.mpr ⟨⟨i, henc⟩, hencoded⟩, ?_⟩
    · rw [List.map_cons, List.map_cons, hdecode, Instr.decode_encode henc, hi]
    · intro h
      obtain ⟨hhead, htail⟩ := List.forall_mem_cons.mp h
      rw [eq_of_encode hi henc hhead, hsame htail]

namespace AsmText

variable {U : Unicode} {base : ℤ} {m tail t : Str}

/-! ### Tokens -/

/-- A character that the assembler gives no meaning of its own. -/
def Calm (c : Char) : Prop :=
  c.toNat < 128 ∧ ascii.isSpace c = false ∧ c ∉ [',', '%', ';', '#', ':']

instance (c : Char) : Decidable (Calm c) := inferInstanceAs (Decidable (_ ∧ _ ∧ _))

/-- A word that stands between blanks or commas, without a comment in it. -/
structure Token (U : Unicode) (t : Str) : Prop where
  ne_nil : t ≠ []
  isSpace : ∀ c ∈ t, U.isSpace c = false
  comma : ∀ c ∈ t, c ≠ ','
  colon : ∀ c ∈ t, c ≠ ':'
  kept : ∀ rest, uncommented U (t ++ rest) = t ++ uncommented U rest

theorem uncommented_append (h : ∀ c ∈ t, c ≠ '%' ∧ c ≠ ';' ∧ c ≠ '#') (rest : Str) :
    uncommented U (t ++ rest) = t ++ uncommented U rest := by
  induction t with
  | nil => rfl
  | cons c t ih =>
    obtain ⟨hpercent, hsemicolon, hhash⟩ := h c List.mem_cons_self
    rw [List.cons_append, uncommented, if_neg (by tauto), if_neg hhash,
      ih fun d hd => h d (List.mem_cons_of_mem c hd), List.cons_append]

theorem token_of_calm (hU : U.ExtendsAscii) (hne : t ≠ []) (h : ∀ c ∈ t, Calm c) :
    Token U t where
  ne_nil := hne
  isSpace c hc := by rw [hU.isSpace c (h c hc).1, (h c hc).2.1]
  comma c hc := by
    rintro rfl
    exact (h _ hc).2.2 (by decide)
  colon c hc := by
    rintro rfl
    exact (h _ hc).2.2 (by decide)
  kept := uncommented_append fun c hc => by
    have hmem := (h c hc).2.2
    simp only [List.mem_cons, not_or] at hmem
    tauto

theorem calm_lowerDigit : ∀ d : Fin 16, Calm (lowerDigit d) := by decide

theorem forall_of_all {P : Char → Prop} [DecidablePred P] (h : t.all (P ·) = true) :
    ∀ c ∈ t, P c := by simpa using h

theorem calm_name (op : AluOp) : ∀ c ∈ op.name, Calm c := by
  cases op <;> exact forall_of_all (by decide)

theorem calm_condText (cond : BitVec 4) : ∀ c ∈ condText cond, Calm c := by
  have h : ∀ cond : BitVec 4, (condText cond).all (Calm ·) = true := by decide
  exact forall_of_all (h cond)

theorem calm_natText (n : ℕ) : ∀ c ∈ natText n, Calm c := by
  intro c hc
  obtain ⟨d, rfl⟩ := mem_zeroPadded hc
  exact calm_lowerDigit (d.castLE (by decide))

theorem token_natText (hU : U.ExtendsAscii) (n : ℕ) : Token U (natText n) :=
  token_of_calm hU (zeroPadded_ne_nil _ _ _ _) (calm_natText n)

/-- A token with a character in front of it that has no meaning. -/
theorem token_cons (hU : U.ExtendsAscii) {c : Char} (hc : Calm c) (h : ∀ d ∈ t, Calm d) :
    Token U (c :: t) :=
  token_of_calm hU (List.cons_ne_nil c t) (List.forall_mem_cons.mpr ⟨hc, h⟩)

theorem token_registerText (hU : U.ExtendsAscii) (r : RegId) : Token U (registerText r) :=
  token_cons hU (by decide) (calm_natText r.toNat)

theorem token_signedText (hU : U.ExtendsAscii) (v : ℤ) : Token U (signedText v) := by
  rw [signedText]
  split_ifs
  · exact token_cons hU (by decide) (calm_natText v.natAbs)
  · exact token_cons hU (by decide) (calm_natText v.natAbs)

/-- An immediate is no comment. -/
theorem token_immediate (hU : U.ExtendsAscii) (n : ℕ) : Token U ('#' :: natText n) := by
  have h := token_natText hU n
  have hspace : U.isSpace '#' = false := by
    rw [hU.isSpace _ (by decide)]
    decide
  refine ⟨List.cons_ne_nil _ _, List.forall_mem_cons.mpr ⟨hspace, h.isSpace⟩,
    List.forall_mem_cons.mpr ⟨by decide, h.comma⟩,
    List.forall_mem_cons.mpr ⟨by decide, h.colon⟩, ?_⟩
  intro rest
  have hstarts : startsValue U (natText n ++ rest) = true := by
    obtain ⟨c, ds, hn⟩ := List.exists_cons_of_ne_nil h.ne_nil
    obtain ⟨d, hd⟩ := mem_zeroPadded (hn ▸ List.mem_cons_self : c ∈ natText n)
    have hdigit : ∀ d : Fin 10,
        (lowerDigit d).toNat < 128 ∧ ascii.isAlnum (lowerDigit d) = true := by
      decide
    rw [hn, List.cons_append, startsValue, hd, hU.isAlnum _ (hdigit d).1, (hdigit d).2]
    rfl
  rw [List.cons_append, uncommented, if_neg (by decide), if_pos rfl, if_pos hstarts, h.kept,
    List.cons_append]

/-! ### Lines -/

/-- What stands behind a mnemonic. -/
structure Tail (U : Unicode) (tail : Str) : Prop where
  head : ∃ c ∈ tail.head?, U.isSpace c = false ∧ c ≠ ':'
  last : ∃ c ∈ tail.getLast?, U.isSpace c = false
  kept : ∀ rest, uncommented U (tail ++ rest) = tail ++ uncommented U rest

theorem Token.asTail (h : Token U t) : Tail U t where
  head := by
    obtain ⟨c, rest, rfl⟩ := List.exists_cons_of_ne_nil h.ne_nil
    exact ⟨c, rfl, h.isSpace c List.mem_cons_self, h.colon c List.mem_cons_self⟩
  last := by
    refine ⟨t.getLast h.ne_nil, List.getLast?_eq_some_getLast h.ne_nil, ?_⟩
    exact h.isSpace _ (List.getLast_mem h.ne_nil)
  kept := h.kept

theorem Token.pairTail {a b : Str} (ha : Token U a) (hb : Token U b) :
    Tail U (a ++ ',' :: ' ' :: b) where
  head := by
    obtain ⟨c, rest, rfl⟩ := List.exists_cons_of_ne_nil ha.ne_nil
    exact ⟨c, rfl, ha.isSpace c List.mem_cons_self, ha.colon c List.mem_cons_self⟩
  last := by
    refine ⟨b.getLast hb.ne_nil, ?_, hb.isSpace _ (List.getLast_mem hb.ne_nil)⟩
    simp [List.getLast?_append, List.getLast?_cons, List.getLast?_eq_some_getLast hb.ne_nil]
  kept rest := by
    have hsep : uncommented U (',' :: ' ' :: (b ++ rest)) =
        ',' :: ' ' :: (b ++ uncommented U rest) := by
      rw [← hb.kept]
      exact uncommented_append (t := [',', ' ']) (forall_of_all (by decide)) (b ++ rest)
    rw [List.append_assoc, ha.kept, List.cons_append, List.cons_append, hsep, List.append_assoc,
      List.cons_append, List.cons_append]

theorem isSpace_blank (hU : U.ExtendsAscii) : U.isSpace ' ' = true := by
  rw [hU.isSpace _ (by decide)]
  decide

theorem kept_blanks {pad : Str} (hpad : ∀ c ∈ pad, c = ' ') (rest : Str) :
    uncommented U (pad ++ rest) = pad ++ uncommented U rest :=
  uncommented_append (fun c hc => by
    rw [hpad c hc]
    decide) rest

theorem strip_line (hU : U.ExtendsAscii) (hm : Token U m) (htail : Tail U tail) {pad : Str}
    (hpad : ∀ c ∈ pad, c = ' ') : U.strip (m ++ ' ' :: tail ++ pad) = m ++ ' ' :: tail := by
  obtain ⟨c, rest, rfl⟩ := List.exists_cons_of_ne_nil hm.ne_nil
  obtain ⟨z, hz, hspace⟩ := htail.last
  have hlast : (c :: rest ++ ' ' :: tail).getLast? = some z := by
    rw [List.getLast?_append, List.getLast?_cons, Option.mem_def.mp hz]
    rfl
  exact stripChars_append rfl (hm.isSpace c List.mem_cons_self) hlast hspace fun d hd =>
    hpad d hd ▸ isSpace_blank hU

/-- **The comment and the blanks in front of it** are stripped. -/
theorem stripComment_line (hU : U.ExtendsAscii) (hm : Token U m) (htail : Tail U tail) {pad : Str}
    (hpad : ∀ c ∈ pad, c = ' ') (comment : Str) :
    stripComment U (m ++ ' ' :: tail ++ pad ++ ';' :: comment) = m ++ ' ' :: tail := by
  have hblank : uncommented U (' ' :: (tail ++ (pad ++ ';' :: comment))) =
      ' ' :: uncommented U (tail ++ (pad ++ ';' :: comment)) := rfl
  have hend : uncommented U (';' :: comment) = [] := rfl
  have hkept : uncommented U (m ++ ' ' :: tail ++ pad ++ ';' :: comment) =
      m ++ ' ' :: tail ++ pad := by
    rw [List.append_assoc, List.append_assoc, hm.kept, List.cons_append, hblank, htail.kept,
      kept_blanks hpad, hend]
    simp
  rw [stripComment, hkept, strip_line hU hm htail hpad]

/-- A line that begins with a mnemonic has no label. -/
theorem readLabel_line (hU : U.ExtendsAscii) (hm : Token U m) (htail : Tail U tail) :
    readLabel U (m ++ ' ' :: tail) = none := by
  obtain ⟨c, rest, rfl⟩ := List.exists_cons_of_ne_nil hm.ne_nil
  obtain ⟨a, ha, hspace, hcolon⟩ := htail.head
  obtain ⟨tail, rfl⟩ := List.head?_eq_some_iff.mp (Option.mem_def.mp ha)
  have hstop : ∀ w : Str,
      ((rest ++ ' ' :: a :: tail).dropWhile fun c => c.isAlphanum || c = '_').dropWhile U.isSpace ≠
        ':' :: w := by
    intro w hw
    rw [List.dropWhile_append] at hw
    split_ifs at hw with hempty
    · -- the mnemonic is a name, and the blank is skipped
      rw [List.dropWhile_cons_of_neg (by decide), List.dropWhile_cons_of_pos (isSpace_blank hU),
        List.dropWhile_cons_of_neg (Bool.eq_false_iff.mp hspace)] at hw
      exact hcolon (List.cons.inj hw).1
    · obtain ⟨x, xs, hx⟩ := List.exists_cons_of_ne_nil (fun h => hempty (by rw [h]; rfl) :
        rest.dropWhile (fun c => c.isAlphanum || c = '_') ≠ [])
      have hmem : x ∈ c :: rest := List.mem_cons_of_mem c
        ((List.dropWhile_suffix _).mem (hx ▸ List.mem_cons_self))
      rw [hx, List.cons_append, List.dropWhile_cons_of_neg
        (Bool.eq_false_iff.mp (hm.isSpace x hmem))] at hw
      exact hm.colon x hmem (List.cons.inj hw).1
  rw [List.cons_append, readLabel]
  split_ifs
  · split
    · next w hw => exact absurd hw (hstop w)
    · rfl
  · rfl

theorem readLabels_of_none {line : Str} (h : readLabel U line = none) (n : ℕ) :
    readLabels U n line = ([], line) := by
  cases n with
  | zero => rfl
  | succ n => rw [readLabels, h]

/-- What the first pass looks at itself. -/
def handled : List Str := [dotEqu, dotWord, ['L', 'D', 'I'], ['N', 'O', 'P']]

/-- The operands in a text. -/
def operandsOf (U : Unicode) (tail : Str) : List Str := words (fun c => c = ',' || U.isSpace c) tail

theorem statement_line (hU : U.ExtendsAscii) (hm : Token U m) (htail : Tail U tail)
    (hupper : U.upper m ∉ handled) :
    statement U (m ++ ' ' :: tail) = .ok (.emit (U.upper m) (operandsOf U tail)) := by
  have hstrip : U.strip (m ++ ' ' :: tail ++ []) = m ++ ' ' :: tail :=
    strip_line hU hm htail (by simp)
  rw [List.append_nil] at hstrip
  have hsplit : splitOperands U (m ++ ' ' :: tail) = m :: operandsOf U tail := by
    rw [splitOperands, hstrip]
    refine words_append_sep (fun c hc => ?_) hm.ne_nil ?_ tail
    · simp [hm.isSpace c hc, hm.comma c hc]
    · simp [isSpace_blank hU]
  have hne : m ++ ' ' :: tail ≠ [] := List.append_ne_nil_of_left_ne_nil hm.ne_nil _
  simp only [handled, List.mem_cons, List.not_mem_nil, or_false, not_or] at hupper
  obtain ⟨hequ, hword, hldi, hnop⟩ := hupper
  rw [statement, if_neg hne, hsplit]
  simp only [if_neg hequ, if_neg hword, if_neg hldi, if_neg hnop]

/-- **A line of an instruction**, with a comment, in the first pass. -/
theorem firstPassLine_line {Loc : Type} {loc : Loc} {p : Pass Loc} (hU : U.ExtendsAscii)
    (hm : Token U m) (htail : Tail U tail) (hupper : U.upper m ∉ handled) {pad : Str}
    (hpad : ∀ c ∈ pad, c = ' ') (comment : Str) (hp : p.pending = []) :
    firstPassLine U base p (loc, m ++ ' ' :: tail ++ pad ++ ';' :: comment) =
      .ok (p.emit loc (U.upper m) (operandsOf U tail)) := by
  have hne : m ++ ' ' :: tail ≠ [] := List.append_ne_nil_of_left_ne_nil hm.ne_nil _
  have hbind : p.bindPending base = p := by
    rw [Pass.bindPending, hp, List.map_nil, List.nil_append, ← hp]
  rw [firstPassLine, stripComment_line hU hm htail hpad]
  simp only [if_neg hne, readLabels_of_none (readLabel_line hU hm htail), addLabels,
    statement_line hU hm htail hupper]
  exact congrArg (fun q : Pass Loc => Except.ok (q.emit loc (U.upper m) (operandsOf U tail))) hbind

/-! ### Operands -/

theorem Token.operandsOf (h : Token U t) : AsmText.operandsOf U t = [t] :=
  words_eq_singleton (fun c hc => by simp [h.isSpace c hc, h.comma c hc]) h.ne_nil

theorem Token.operandsOf_pair {a b : Str} (hU : U.ExtendsAscii) (ha : Token U a) (hb : Token U b) :
    AsmText.operandsOf U (a ++ ',' :: ' ' :: b) = [a, b] := by
  rw [AsmText.operandsOf, words_append_sep (fun c hc => by simp [ha.isSpace c hc, ha.comma c hc])
    ha.ne_nil (by simp), words_cons_sep (by simp [isSpace_blank hU])]
  exact congrArg (a :: ·) hb.operandsOf

theorem Token.strip (h : Token U t) : U.strip t = t := stripChars_eq_self h.isSpace

theorem matchRegister_registerText (hU : U.ExtendsAscii) (r : RegId) :
    matchRegister U (registerText r) = some r.toNat := by
  rw [matchRegister, (token_registerText hU r).strip, registerText]
  obtain ⟨c, ds, hn⟩ := List.exists_cons_of_ne_nil (token_natText hU r.toNat).ne_nil
  have hfold := foldlM_natText hU r.toNat
  rw [hn] at hfold ⊢
  simp only [true_or, if_true]
  exact hfold

theorem parseRegister_registerText (hU : U.ExtendsAscii) (r : RegId) :
    parseRegister U (registerText r) = .ok r := by
  have hle : r.toNat ≤ 15 := Nat.le_of_lt_succ r.isLt
  rw [parseRegister, matchRegister_registerText hU]
  simp only [if_pos hle, BitVec.ofNat_toNat, BitVec.setWidth_eq]

theorem isRegister_registerText (hU : U.ExtendsAscii) (r : RegId) :
    isRegister U (registerText r) = true := by
  rw [isRegister, matchRegister_registerText hU]
  rfl

theorem isRegister_immediate (hU : U.ExtendsAscii) (n : ℕ) :
    isRegister U ('#' :: natText n) = false := by
  rw [isRegister, matchRegister, (token_immediate hU n).strip]
  obtain ⟨c, ds, hn⟩ := List.exists_cons_of_ne_nil (token_natText hU n).ne_nil
  rw [hn]
  rfl

theorem parseValue_immediate (hU : U.ExtendsAscii) (n : ℕ) :
    parseValue U ('#' :: natText n) [] = .ok (n : ℤ) := by
  have hname : symbolName U ('#' :: natText n) = natText n := by
    rw [symbolName, (token_immediate hU n).strip]
    exact (token_natText hU n).strip
  have hdigits := digits_lower (b := 10) hU (by decide)
  have hsign (c : Char) (rest : Str) (hc : c ∈ ['_', '+', '-', 'x', 'X']) : natText n ≠ c :: rest :=
    fun heq => hdigits.plain_of_mem (heq ▸ List.mem_cons_self : c ∈ natText n) hc
  rw [parseValue, hname]
  simp only [List.lookup_nil]
  split
  · next heq =>
    split at heq
    · next h => exact absurd h (hsign '+' _ (by decide))
    · next h => exact absurd h (hsign '-' _ (by decide))
    · rw [int_natText hU] at heq
      rw [Option.some_inj.mp heq]
  · next heq =>
    split at heq
    · next h => exact absurd h (hsign '+' _ (by decide))
    · next h => exact absurd h (hsign '-' _ (by decide))
    · rw [int_natText hU] at heq
      cases heq

theorem parseValue_signedText (hU : U.ExtendsAscii) (v : ℤ) :
    parseValue U (signedText v) [] = .ok v := by
  have hstrip := (token_signedText hU v).strip
  have hname : symbolName U (signedText v) = signedText v := by
    refine symbolName_bare hstrip ?_
    rw [signedText]
    split_ifs <;> simp
  rw [parseValue, hname, signedText]
  simp only [List.lookup_nil]
  split_ifs with hv
  · simp only [int_natText hU, Option.map_some]
    exact congrArg Except.ok (by omega)
  · simp only [int_natText hU]
    exact congrArg Except.ok (by omega)

/-! ### Mnemonics -/

theorem upper_eq (hU : U.ExtendsAscii) (hm : ∀ c ∈ m, Calm c) (h : ascii.upper m = m) :
    U.upper m = m := by
  rw [hU.upper m fun c hc => (hm c hc).1, h]

theorem upper_name (op : AluOp) : ascii.upper op.name = op.name ∧ op.name ∉ handled := by
  cases op <;> decide

theorem upper_condText (cond : BitVec 4) : ascii.upper (condText cond) = condText cond := by
  revert cond
  decide

theorem resolveCond_condText (hU : U.ExtendsAscii) (cond : BitVec 4) :
    resolveCond U (condText cond) = match condByCode cond with
      | some c => .ok c
      | none => .error (.unknownCondition (condText cond)) := by
  have hascii : ∀ cond : BitVec 4, resolveCond ascii (condText cond) = match condByCode cond with
      | some c => .ok c
      | none => .error (.unknownCondition (condText cond)) := by
    decide
  have hupper := upper_eq hU (calm_condText cond) (upper_condText cond)
  rw [← hascii cond, resolveCond, resolveCond, hupper, upper_condText]

theorem lookup_opText (opcode : BitVec 4) :
    ascii.upper (opText none opcode) = opText none opcode ∧ opText none opcode ∉ handled ∧
      aluOpcodes.lookup (opText none opcode) = none ∧ (opText none opcode).all (Calm ·) = true ∧
      (opText none opcode).head? = some '?' := by
  revert opcode
  decide

/-! ### Words -/

theorem immediate_of_decode {w : Word} {op : Option AluOp} {rd : RegId} {imm : Word}
    (h : decode w = .itype op rd imm) : imm.toNat ≤ 0xFFFFFF := by
  simp only [decode] at h
  split_ifs at h
  obtain ⟨-, -, rfl⟩ := Decoded.itype.inj h
  rw [BitVec.toNat_setWidth]
  exact (Nat.mod_le _ _).trans (Nat.le_of_lt_succ (BitVec.isLt _))

theorem displacement_of_decode {w : Word} {cond : BitVec 4} {disp : ℤ}
    (h : decode w = .branch cond disp) : -128 ≤ disp ∧ disp ≤ 127 := by
  simp only [decode] at h
  split_ifs at h
  obtain ⟨-, rfl⟩ := Decoded.branch.inj h
  exact byte_range _

/-- What the second pass makes of the text of a word: the encoding of its instruction, or a refusal
if it has none. -/
inductive Recoded (w : Word) : Except Refusal Word → Prop
  | instr {w' : Word} (h : Reencodes w w') : Recoded w (.ok w')
  | refused {e : Refusal} (h : ¬(decode w).Known) : Recoded w (.error e)

section Encode

variable {w : Word} {Loc : Type} {loc : Loc} {k : ℕ}

theorem encodeItem_memory (hU : U.ExtendsAscii) (ra rb : RegId)
    (hm : m = ['L', 'O', 'A', 'D'] ∨ m = ['S', 'T', 'O', 'R']) :
    encodeItem U [] base ⟨loc, m, [registerText ra, registerText rb], k⟩ =
      .ok (if m = ['L', 'O', 'A', 'D'] then encodeLoad ra rb else encodeStor ra rb) := by
  have hword : m ≠ dotWord := by
    rintro rfl
    exact absurd hm (by decide)
  rw [encodeItem, if_neg hword, if_pos hm]
  simp only [parseRegister_registerText hU]
  rfl

theorem isBranch_condText : ∀ cond : BitVec 4, isBranch ('B' :: condText cond) = true := by decide

theorem encodeItem_branch (hU : U.ExtendsAscii) (cond : BitVec 4) (disp : ℤ) :
    encodeItem U [] base ⟨loc, 'B' :: condText cond, [signedText disp], k⟩ =
      match condByCode cond with
      | some c => reported (encodeBranch c disp)
      | none => .error (.unknownCondition (condText cond)) := by
  have hdisp : displacement U [] (base + (k : ℤ)) (signedText disp) = .ok disp := by
    rw [displacement, List.lookup_nil]
    exact parseValue_signedText hU disp
  obtain ⟨hword, hmemory⟩ := other_of_head (m := 'B' :: condText cond) (.inl rfl)
  rw [encodeItem, if_neg hword, if_neg hmemory, if_pos (isBranch_condText cond)]
  simp only [hdisp, List.tail_cons, resolveCond_condText hU]
  cases condByCode cond <;> rfl

theorem encodeItem_jump (hU : U.ExtendsAscii) (cond : BitVec 4) (rt : RegId) :
    encodeItem U [] base ⟨loc, 'J' :: condText cond, [registerText rt], k⟩ =
      match condByCode cond with
      | some c => .ok (encodeJump c rt)
      | none => .error (.unknownCondition (condText cond)) := by
  obtain ⟨hword, hmemory⟩ := other_of_head (m := 'J' :: condText cond) (.inr rfl)
  have hbranch : ¬isBranch ('J' :: condText cond) = true := Bool.false_ne_true
  have hhead : ('J' :: condText cond).head? = some 'J' := rfl
  rw [encodeItem, if_neg hword, if_neg hmemory, if_neg hbranch, if_pos hhead]
  simp only [parseRegister_registerText hU, List.tail_cons, resolveCond_condText hU]
  cases condByCode cond <;> rfl

theorem lookup_name (op : AluOp) : aluOpcodes.lookup op.name = some op := by
  cases op <;> rfl

theorem encodeItem_rtype (hU : U.ExtendsAscii) (op : AluOp) (rd rs : RegId) :
    encodeItem U [] base ⟨loc, op.name, [registerText rd, registerText rs], k⟩ =
      .ok (encodeRtype op rd rs) := by
  obtain ⟨hword, hmemory, hbranch, hjump⟩ := other_of_lookup (lookup_name op)
  rw [encodeItem, if_neg hword, if_neg hmemory, if_neg hbranch, if_neg hjump]
  simp only [lookup_name, parseRegister_registerText hU, isRegister_registerText hU]
  rfl

theorem encodeItem_itype (hU : U.ExtendsAscii) (op : AluOp) (rd : RegId) (imm : ℕ) :
    encodeItem U [] base ⟨loc, op.name, [registerText rd, '#' :: natText imm], k⟩ =
      reported (encodeItype op rd imm) := by
  obtain ⟨hword, hmemory, hbranch, hjump⟩ := other_of_lookup (lookup_name op)
  have hnonneg : ¬(imm : ℤ) < 0 := by omega
  rw [encodeItem, if_neg hword, if_neg hmemory, if_neg hbranch, if_neg hjump]
  simp only [lookup_name, parseRegister_registerText hU, isRegister_immediate hU,
    parseValue_immediate hU, Bool.false_eq_true, if_false]
  simp only [bind, Except.bind, if_neg hnonneg]

/-- A mnemonic that the assembler does not know. -/
theorem encodeItem_unknown {operands : List Str} (hword : m ≠ dotWord)
    (hmemory : ¬(m = ['L', 'O', 'A', 'D'] ∨ m = ['S', 'T', 'O', 'R']))
    (hhead : m.head? ≠ some 'B' ∧ m.head? ≠ some 'J') (hlookup : aluOpcodes.lookup m = none) :
    encodeItem U [] base ⟨loc, m, operands, k⟩ = .error (.unknownInstruction m) := by
  have hbranch : ¬isBranch m = true := fun h => hhead.1 (head_of_isBranch h)
  rw [encodeItem, if_neg hword, if_neg hmemory, if_neg hbranch, if_neg hhead.2]
  simp only [hlookup]

end Encode

/-! ### The text of a word is read -/

/-- How the assembler reads the text of a word: a mnemonic, and what stands behind it. -/
structure Shown (U : Unicode) (w : Word) (m tail : Str) : Prop where
  text : displayText w = m ++ ' ' :: tail
  mnemonic : Token U m
  behind : Tail U tail
  upper : U.upper m ∉ handled
  recoded : ∀ {Loc : Type} (loc : Loc) (base : ℤ) (k : ℕ),
    Recoded w (encodeItem U [] base ⟨loc, U.upper m, operandsOf U tail, k⟩)

section Shown

variable {w : Word} {ra rb : RegId} {cond : BitVec 4} {op : Option AluOp}

theorem shown_memory (hU : U.ExtendsAscii) (ra rb : RegId)
    (hm : m = ['L', 'O', 'A', 'D'] ∨ m = ['S', 'T', 'O', 'R'])
    (htext : displayText w = twoOperands m (registerText ra) (registerText rb))
    (hdecode : decode w = if m = ['L', 'O', 'A', 'D'] then .load ra rb else .stor ra rb) :
    ∃ m tail, Shown U w m tail := by
  have ha := token_registerText hU ra
  have hb := token_registerText hU rb
  have hplain : m ≠ [] ∧ m.all (Calm ·) = true ∧ ascii.upper m = m ∧ m ∉ handled := by
    rcases hm with rfl | rfl <;> decide
  obtain ⟨hne, hall, hupper, hhandled⟩ := hplain
  have hcalm := forall_of_all hall
  have hupper := upper_eq hU hcalm hupper
  refine ⟨m, _, htext, token_of_calm hU hne hcalm, ha.pairTail hb,
    by rwa [hupper], ?_⟩
  intro Loc loc base k
  rw [hupper, Token.operandsOf_pair hU ha hb, encodeItem_memory hU ra rb hm]
  rcases hm with rfl | rfl
  · exact .instr ⟨.load ra rb, hdecode.symm, rfl⟩
  · exact .instr ⟨.stor ra rb, hdecode.symm, rfl⟩

/-- A condition or none, and what is encoded with it. -/
theorem shown_cond (hU : U.ExtendsAscii) {c : Char} {a : Str} (hc : Calm c)
    (hletter : ascii.upper (c :: condText cond) = c :: condText cond)
    (hhandled : c :: condText cond ∉ handled) (ha : Token U a)
    (htext : displayText w = c :: (condText cond ++ ' ' :: a))
    (hrecoded : ∀ {Loc : Type} (loc : Loc) (base : ℤ) (k : ℕ),
      Recoded w (encodeItem U [] base ⟨loc, c :: condText cond, [a], k⟩)) :
    ∃ m tail, Shown U w m tail := by
  have hcalm : ∀ d ∈ c :: condText cond, Calm d :=
    List.forall_mem_cons.mpr ⟨hc, calm_condText cond⟩
  have hupper := upper_eq hU hcalm hletter
  refine ⟨c :: condText cond, a, htext, token_of_calm hU (List.cons_ne_nil _ _) hcalm, ha.asTail,
    by rwa [hupper], ?_⟩
  intro Loc loc base k
  rw [hupper, ha.operandsOf]
  exact hrecoded loc base k

theorem shown_branch (hU : U.ExtendsAscii) {disp : ℤ} (hdecode : decode w = .branch cond disp) :
    ∃ m tail, Shown U w m tail := by
  have htext : displayText w = 'B' :: (condText cond ++ ' ' :: signedText disp) := by
    rw [displayText, hdecode]
  have hplain : ∀ cond, ascii.upper ('B' :: condText cond) = 'B' :: condText cond ∧
      'B' :: condText cond ∉ handled := by decide
  refine shown_cond hU (by decide) (hplain cond).1 (hplain cond).2 (token_signedText hU disp)
    htext ?_
  intro Loc loc base k
  rw [encodeItem_branch hU]
  cases hcond : condByCode cond with
  | none => exact .refused (by rw [hdecode, Decoded.Known, hcond]; simp)
  | some c =>
    have hrange := displacement_of_decode hdecode
    have hdecoded : (Instr.branch c ⟨disp, hrange⟩).decoded = decode w := by
      rw [hdecode, cond_eq hcond]
      rfl
    obtain ⟨w', hw'⟩ := Instr.exists_encode (.branch c ⟨disp, hrange⟩)
    have hencode : encodeBranch c disp = .ok w' := hw'
    simp only [hencode]
    exact .instr ⟨_, hdecoded, hw'⟩

theorem shown_jump (hU : U.ExtendsAscii) (hdecode : decode w = .jump cond ra) :
    ∃ m tail, Shown U w m tail := by
  have htext : displayText w = 'J' :: (condText cond ++ ' ' :: registerText ra) := by
    rw [displayText, hdecode]
  have hplain : ∀ cond, ascii.upper ('J' :: condText cond) = 'J' :: condText cond ∧
      'J' :: condText cond ∉ handled := by decide
  refine shown_cond hU (by decide) (hplain cond).1 (hplain cond).2 (token_registerText hU ra)
    htext ?_
  intro Loc loc base k
  rw [encodeItem_jump hU]
  cases hcond : condByCode cond with
  | none => exact .refused (by rw [hdecode, Decoded.Known, hcond]; simp)
  | some c =>
    have hdecoded : (Instr.jump c ra).decoded = decode w := by
      rw [hdecode, cond_eq hcond]
      rfl
    exact .instr ⟨_, hdecoded, rfl⟩

/-- An operation or none, and what is encoded with it. -/
theorem shown_alu (hU : U.ExtendsAscii) {opcode : BitVec 4} {a b : Str} (ha : Token U a)
    (hb : Token U b) (htext : displayText w = twoOperands (opText op opcode) a b)
    (hunknown : op = none → ¬(decode w).Known)
    (hrecoded : ∀ o, op = some o → ∀ {Loc : Type} (loc : Loc) (base : ℤ) (k : ℕ),
      Recoded w (encodeItem U [] base ⟨loc, o.name, [a, b], k⟩)) :
    ∃ m tail, Shown U w m tail := by
  cases op with
  | none =>
    obtain ⟨hupper, hhandled, hlookup, hcalm, hhead⟩ := lookup_opText opcode
    have hcalm := forall_of_all hcalm
    have hupper := upper_eq hU hcalm hupper
    have hne : opText none opcode ≠ [] := List.cons_ne_nil _ _
    refine ⟨opText none opcode, _, htext, token_of_calm hU hne hcalm, ha.pairTail hb,
      by rwa [hupper], ?_⟩
    intro Loc loc base k
    rw [hupper, encodeItem_unknown ?_ ?_ (by rw [hhead]; decide) hlookup]
    · exact .refused (hunknown rfl)
    · exact fun h => hhandled (h ▸ by decide)
    · rintro (h | h) <;> exact absurd (h ▸ hhead) (by decide)
  | some o =>
    obtain ⟨hupper, hhandled⟩ := upper_name o
    have hupper := upper_eq hU (calm_name o) hupper
    have hne : o.name ≠ [] := by cases o <;> exact List.cons_ne_nil _ _
    refine ⟨o.name, _, htext, token_of_calm hU hne (calm_name o), ha.pairTail hb,
      by rwa [hupper], ?_⟩
    intro Loc loc base k
    rw [hupper, Token.operandsOf_pair hU ha hb]
    exact hrecoded o rfl loc base k

theorem shown_rtype (hU : U.ExtendsAscii) (hdecode : decode w = .rtype op ra rb) :
    ∃ m tail, Shown U w m tail := by
  have htext : displayText w =
      twoOperands (opText op (w.extractLsb' 4 4)) (registerText ra) (registerText rb) := by
    rw [displayText, hdecode]
  refine shown_alu hU (token_registerText hU ra) (token_registerText hU rb) htext ?_ ?_
  · rintro rfl
    rw [hdecode]
    exact Bool.false_ne_true
  · rintro o rfl Loc loc base k
    rw [encodeItem_rtype hU]
    exact .instr ⟨.rtype o ra rb, hdecode.symm, rfl⟩

theorem shown_itype (hU : U.ExtendsAscii) {imm : Word} (hdecode : decode w = .itype op ra imm) :
    ∃ m tail, Shown U w m tail := by
  have htext : displayText w = twoOperands (opText op (w.extractLsb' 12 4)) (registerText ra)
      ('#' :: natText imm.toNat) := by
    rw [displayText, hdecode]
  refine shown_alu hU (token_registerText hU ra) (token_immediate hU _) htext ?_ ?_
  · rintro rfl
    rw [hdecode]
    exact Bool.false_ne_true
  · rintro o rfl Loc loc base k
    have hle := immediate_of_decode hdecode
    have hrange : 0 ≤ (imm.toNat : ℤ) ∧ (imm.toNat : ℤ) ≤ 0xFFFFFF := by omega
    obtain ⟨w', hw'⟩ := Instr.exists_encode (.itype o ra ⟨imm.toNat, hrange⟩)
    have hencode : encodeItype o ra (imm.toNat : ℤ) = .ok w' := hw'
    have hdecoded : (Instr.itype o ra ⟨imm.toNat, hrange⟩).decoded = decode w := by
      rw [hdecode, Instr.decoded, BitVec.ofInt_natCast, BitVec.ofNat_toNat, BitVec.setWidth_eq]
    rw [encodeItem_itype hU, hencode]
    exact .instr ⟨_, hdecoded, hw'⟩

/-- A text of words that mean nothing to the assembler. -/
theorem shown_words (hU : U.ExtendsAscii) (htext : displayText w = m ++ ' ' :: tail)
    (hm : m ≠ [] ∧ m.all (Calm ·) = true ∧ ascii.upper m ∉ handled)
    (htail : tail.head?.any (Calm ·) = true ∧ tail.getLast?.any (Calm ·) = true ∧
      tail.all (fun c => c ≠ '%' ∧ c ≠ ';' ∧ c ≠ '#') = true)
    (hmemory : ¬(ascii.upper m = ['L', 'O', 'A', 'D'] ∨ ascii.upper m = ['S', 'T', 'O', 'R']))
    (hhead : (ascii.upper m).head? ≠ some 'B' ∧ (ascii.upper m).head? ≠ some 'J')
    (hlookup : aluOpcodes.lookup (ascii.upper m) = none) (hunknown : ¬(decode w).Known) :
    ∃ m tail, Shown U w m tail := by
  obtain ⟨hne, hall, hhandled⟩ := hm
  have hcalm : ∀ c ∈ m, Calm c := forall_of_all hall
  obtain ⟨hfirst, hlast, hkept⟩ := htail
  obtain ⟨a, ha, hacalm⟩ : ∃ a ∈ tail.head?, Calm a := by
    simpa [Option.any_eq_true] using hfirst
  obtain ⟨z, hz, hzcalm⟩ : ∃ z ∈ tail.getLast?, Calm z := by
    simpa [Option.any_eq_true] using hlast
  have hupper : U.upper m = ascii.upper m := hU.upper m fun c hc => (hcalm c hc).1
  have hspace {c : Char} (hc : Calm c) : U.isSpace c = false := by rw [hU.isSpace c hc.1, hc.2.1]
  refine ⟨m, tail, htext, token_of_calm hU hne hcalm, ⟨⟨a, ha, hspace hacalm, ?_⟩,
    ⟨z, hz, hspace hzcalm⟩, uncommented_append (forall_of_all hkept)⟩, by rwa [hupper], ?_⟩
  · rintro rfl
    exact hacalm.2.2 (by decide)
  · intro Loc loc base k
    rw [hupper, encodeItem_unknown ?_ hmemory hhead hlookup]
    · exact .refused hunknown
    · intro h
      exact hhandled (h ▸ by decide)

theorem shown_halt (hU : U.ExtendsAscii) (hdecode : decode w = .halt) :
    ∃ m tail, Shown U w m tail := by
  refine shown_words hU (m := ['H', 'A', 'L', 'T']) (by rw [displayText, hdecode]; rfl) (by decide)
    (by decide) (by decide) (by decide) (by decide) (by rw [hdecode]; exact id)

theorem shown_undefined (hU : U.ExtendsAscii) (hdecode : decode w = .undefined) :
    ∃ m tail, Shown U w m tail := by
  refine shown_words hU (m := ['u', 'n', 'd', 'e', 'f', 'i', 'n', 'e', 'd'])
    (by rw [displayText, hdecode]; rfl) (by decide) ?_ (by decide) (by decide) (by decide)
    (by rw [hdecode]; exact id)
  generalize w.extractLsb' 4 4 = sub
  revert sub
  decide

/-- **Every word is shown** as a line of source text, which is refused if it has no instruction. -/
theorem exists_shown (hU : U.ExtendsAscii) (w : Word) : ∃ m tail, Shown U w m tail := by
  cases hdecode : decode w with
  | halt => exact shown_halt hU hdecode
  | undefined => exact shown_undefined hU hdecode
  | rtype op rd rs => exact shown_rtype hU hdecode
  | itype op rd imm => exact shown_itype hU hdecode
  | branch cond disp => exact shown_branch hU hdecode
  | jump cond rt => exact shown_jump hU hdecode
  | load rd ra =>
    refine shown_memory hU rd ra (.inl rfl) ?_ (by rw [hdecode, if_pos rfl])
    rw [displayText, hdecode]
  | stor rs ra =>
    refine shown_memory hU rs ra (.inr rfl) ?_ (by rw [hdecode, if_neg (by decide)])
    rw [displayText, hdecode]

end Shown

/-! ### The listing is read again -/

section Listing

variable {Loc : Type} {w : Word} {code : List Word} {lines : List (Loc × Str)}

/-- A line that shows a word, with a comment. -/
def Reads (U : Unicode) (w : Word) (l : Loc × Str) : Prop :=
  ∃ m tail pad comment, Shown U w m tail ∧ (∀ c ∈ pad, c = ' ') ∧
    l.2 = m ++ ' ' :: tail ++ pad ++ ';' :: comment

/-- **The first pass** makes an item of each line, and no symbols. -/
theorem passLines_reads (base : ℤ) (hU : U.ExtendsAscii)
    (h : List.Forall₂ (Reads U) code lines) {p : Pass Loc} (hp : p.pending = []) :
    ∃ p' items, passLines U base p lines = .ok p' ∧ p'.pending = [] ∧ p'.symbols = p.symbols ∧
      p'.items = p.items ++ items ∧
      List.Forall₂ (fun w it => Recoded w (encodeItem U [] base it)) code items := by
  induction h generalizing p with
  | nil => exact ⟨p, [], rfl, hp, rfl, (List.append_nil _).symm, .nil⟩
  | @cons w l code lines hl _ ih =>
    obtain ⟨m, tail, pad, comment, hshown, hpad, hline⟩ := hl
    have hfirst : firstPassLine U base p l =
        .ok (p.emit l.1 (U.upper m) (operandsOf U tail)) := by
      have hl : l = (l.1, m ++ ' ' :: tail ++ pad ++ ';' :: comment) := hline ▸ rfl
      rw [hl]
      exact firstPassLine_line hU hshown.mnemonic hshown.behind hshown.upper hpad comment hp
    obtain ⟨p', items, hpass, hpending, hsymbols, hitems, hrecoded⟩ :=
      ih (p := p.emit l.1 (U.upper m) (operandsOf U tail)) hp
    refine ⟨p', ⟨l.1, U.upper m, operandsOf U tail, p.index⟩ :: items,
      passLines_cons.mpr ⟨_, hfirst, hpass⟩, hpending, hsymbols, ?_,
      .cons (hshown.recoded l.1 base p.index) hrecoded⟩
    rw [hitems, Pass.emit, List.append_assoc]
    rfl

/-- **The second pass** encodes the instruction of each word, or refuses one that has none. -/
theorem mapM_recoded {items : List (Item Loc)}
    (h : List.Forall₂ (fun w it => Recoded w (encodeItem U [] base it)) code items) :
    (∃ words, (items.mapM fun it => reportAt it.lineNo (encodeItem U [] base it)) = .ok words ∧
      List.Forall₂ Reencodes code words) ∨
    (∃ e, (items.mapM fun it => reportAt it.lineNo (encodeItem U [] base it)) = .error e) ∧
      ∃ w ∈ code, ¬(decode w).Known := by
  induction h with
  | nil => exact .inl ⟨[], rfl, .nil⟩
  | @cons w it code items hrecoded _ ih =>
    rw [List.mapM_cons]
    generalize encodeItem U [] base it = result at hrecoded
    cases hrecoded with
    | refused hunknown => exact .inr ⟨⟨_, rfl⟩, w, List.mem_cons_self, hunknown⟩
    | instr hw =>
      rcases ih with ⟨words, hwords, hall⟩ | ⟨⟨e, herror⟩, w', hw', hunknown⟩
      · rw [hwords]
        exact .inl ⟨_, rfl, .cons hw hall⟩
      · rw [herror]
        exact .inr ⟨⟨e, rfl⟩, w', List.mem_cons_of_mem w hw', hunknown⟩

/-- What is read of the words: all of them are instructions, or the source is refused. -/
theorem assemble_reads (base : ℤ) (hU : U.ExtendsAscii) (h : List.Forall₂ (Reads U) code lines) :
    (∃ out, assemble U lines base = .ok out ∧ List.Forall₂ Reencodes code out.code) ∨
    (∃ e, assemble U lines base = .error e) ∧ ∃ w ∈ code, ¬(decode w).Known := by
  obtain ⟨p', items, hpass, hpending, hsymbols, hitems, hrecoded⟩ :=
    passLines_reads base hU h (rfl : (Pass.start : Pass Loc).pending = [])
  have hbind : p'.bindPending base = p' := by
    rw [Pass.bindPending, hpending, List.map_nil, List.nil_append, ← hpending]
  have hfirst : firstPass U lines base = .ok ([], items) := by
    rw [firstPass]
    rw [passLines] at hpass
    rw [hpass]
    change Except.ok ((p'.bindPending base).symbols, (p'.bindPending base).items) = _
    rw [hbind, hsymbols, hitems]
    rfl
  rw [assemble, hfirst]
  rcases mapM_recoded hrecoded with ⟨words, hwords, hall⟩ | ⟨⟨e, herror⟩, hunknown⟩
  · have hzero : ((items.zip words).find? fun x => x.2 == 0) = none := by
      rw [List.find?_eq_none]
      intro x hx
      obtain ⟨i, henc⟩ := (encoded_again hall).2.2.1 x.2 (List.of_mem_zip hx).2
      simpa using Instr.encode_ne_zero henc
    refine .inl ⟨⟨[], words, items⟩, ?_, hall⟩
    simp only [bind, Except.bind, hwords, hzero]
    rfl
  · refine .inr ⟨⟨e, ?_⟩, hunknown⟩
    simp only [bind, Except.bind, herror]

/-! ### The columns -/

theorem length_intText {a : ℤ} (ha : 0 ≤ a) (hlt : a < 10000) : (intText a).length ≤ 4 := by
  rw [intText_of_nonneg ha, natText, zeroPadded, length_lastDigits, Nat.zero_max]
  exact (Numeral.width_le_iff (by decide) (by decide)).mpr (by omega)

/-- The first two columns are 20 characters wide. -/
theorem drop_listingLine {a : ℤ} (ha : 0 ≤ a) (hlt : a < 10000) (w : Word) (source : Str) :
    (listingLine a w source).drop 20 =
      ljust 28 (displayText w) ++ [' ', ' ', ';', ' '] ++ source := by
  have hnumber : (rjust 4 (intText a)).length = 4 := by
    have hlength := length_intText ha hlt
    rw [rjust, List.length_append, List.length_replicate]
    omega
  have hword : (zeroPadded 16 upperDigit 8 w.toNat).length = 8 :=
    length_zeroPadded (by decide) (by decide) w.isLt
  refine List.drop_left' ?_
  simp only [List.length_append, hnumber, hword, List.length_cons, List.length_nil]

theorem reads_column (hU : U.ExtendsAscii) {l : Loc × Str} {source : Str}
    (hl : l.2 = ljust 28 (displayText w) ++ [' ', ' ', ';', ' '] ++ source) : Reads U w l := by
  obtain ⟨m, tail, hshown⟩ := exists_shown hU w
  refine ⟨m, tail, List.replicate (28 - (displayText w).length) ' ' ++ [' ', ' '], ' ' :: source,
    hshown, ?_, ?_⟩
  · intro c hc
    rcases List.mem_append.mp hc with hc | hc
    · exact List.eq_of_mem_replicate hc
    · simpa using hc
  · rw [hl, ljust, ← hshown.text]
    simp

theorem reads_listing (hU : U.ExtendsAscii) {sources : List Str}
    (hsources : sources.length = code.length) (hbase : 0 ≤ base)
    (hfits : base + code.length ≤ 1024)
    (hlines : lines.map Prod.snd = (listing base code sources).map fun line => line.drop 20) :
    List.Forall₂ (Reads U) code lines := by
  induction code generalizing base sources lines with
  | nil =>
    obtain rfl : sources = [] := List.length_eq_zero_iff.mp hsources
    obtain rfl : lines = [] := List.map_eq_nil_iff.mp hlines
    exact .nil
  | cons w code ih =>
    obtain ⟨source, sources, rfl⟩ := List.exists_cons_of_length_eq_add_one hsources
    obtain ⟨l, lines, rfl⟩ : ∃ l rest, lines = l :: rest := by
      refine List.exists_cons_of_length_pos ?_
      have hlength := congrArg List.length hlines
      simp only [listing, List.length_map, List.length_cons] at hlength
      omega
    rw [List.length_cons, Nat.cast_add, Nat.cast_one] at hfits
    have hlt : base < 10000 := by omega
    simp only [listing, List.map_cons, List.cons.injEq] at hlines
    refine .cons (reads_column hU (hlines.1.trans (drop_listingLine hbase hlt w source))) ?_
    exact ih (Nat.succ_injective hsources) (by omega) (by omega) hlines.2

end Listing

end AsmText

/-- **The listing is assembled into the code that it shows.** From its third column on it is source
text, which the assembler accepts when all words are instructions. The words it makes of it are the
encodings of those instructions, and so the same words where these are encodings. -/
theorem listing_reassembles {Loc : Type} {U : Unicode} (hU : U.ExtendsAscii) {base : ℤ}
    {code : List Word} {sources : List Str} (hsources : sources.length = code.length)
    (hbase : 0 ≤ base) (hfits : base + code.length ≤ 1024) {lines : List (Loc × Str)}
    (hlines : lines.map Prod.snd = (listing base code sources).map fun line => line.drop 20)
    (base' : ℤ) :
    ((∃ out, AsmText.assemble U lines base' = .ok out) ↔ ∀ w ∈ code, (decode w).Known) ∧
    ∀ out, AsmText.assemble U lines base' = .ok out →
      out.code.map decode = code.map decode ∧ (∀ w ∈ out.code, ∃ i : Instr, i.encode = .ok w) ∧
        (out.code = code ↔ ∀ w ∈ code, ∃ i : Instr, i.encode = .ok w) := by
  have hreads := AsmText.reads_listing hU hsources hbase hfits hlines
  rcases AsmText.assemble_reads base' hU hreads with
    ⟨out, hout, hall⟩ | ⟨⟨e, herror⟩, w, hw, hunknown⟩
  · obtain ⟨hknown, hdecode, hencoded, hsame⟩ := encoded_again hall
    refine ⟨iff_of_true ⟨out, hout⟩ hknown, fun out' hout' => ?_⟩
    obtain rfl : out = out' := Except.ok.inj (hout.symm.trans hout')
    exact ⟨hdecode, hencoded, fun h => h ▸ hencoded, hsame⟩
  · constructor
    · refine iff_of_false ?_ fun h => hunknown (h w hw)
      rintro ⟨out, hout⟩
      cases herror.symm.trans hout
    · intro out hout
      cases herror.symm.trans hout

namespace Listed

/-- `MOV R1, #300`, `STOR R1, R2`, and a branch to itself with bits that are not read. -/
def code : List Word := [0x0001F12C, 0x4142, 0xABCDCE00]

def sources : List Str := [['L', 'D', 'I'], [], [';']]

/-- The columns of the listing. -/
def lines : List (Unit × Str) :=
  (listing 8 code sources).map fun line => ((), line.drop 20)

theorem lines_eq : lines.map Prod.snd = (listing 8 code sources).map fun line => line.drop 20 := by
  rw [lines, List.map_map]
  rfl

end Listed

theorem listing_reassembles_three :
    ((∃ out, AsmText.assemble ascii Listed.lines 100 = .ok out) ↔
        ∀ w ∈ Listed.code, (decode w).Known) ∧
      ∀ out, AsmText.assemble ascii Listed.lines 100 = .ok out →
        out.code.map decode = Listed.code.map decode ∧
          (∀ w ∈ out.code, ∃ i : Instr, i.encode = .ok w) ∧
            (out.code = Listed.code ↔ ∀ w ∈ Listed.code, ∃ i : Instr, i.encode = .ok w) :=
  listing_reassembles ascii_extendsAscii rfl (by decide) (by decide) Listed.lines_eq 100

end Fmma
