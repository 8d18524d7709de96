import Fmma.Assembler.Passes
import Fmma.Assembler.Text

/-!
# What the first pass makes of a source

What a line of source text says, on its own: its labels and its statement. The items that the first
pass collects are the instructions of the source, and the names in its symbol table are those that
the source declares.
-/

namespace Fmma

namespace AsmText

open PyStr

variable {Loc : Type} {U : Unicode} {base : ℤ} {p p' q : Pass Loc} {l : Loc × Str}
  {lines : List (Loc × Str)} {name : Str}

/-! ### Lines -/

section Lines

variable (U)

/-- The labels in front of a line. -/
def lineLabels (raw : Str) : List Str :=
  let line := stripComment U raw
  (readLabels U line.length line).1

/-- The statement of a line that says something. -/
def lineStatement (raw : Str) : Option Statement :=
  let line := stripComment U raw
  if line = [] then none else (statement U (readLabels U line.length line).2).toOption

/-- The instructions of a source, a word for each, from the index `k` on. -/
def instructionsFrom (k : ℕ) : List (Loc × Str) → List (Item Loc)
  | [] => []
  | l :: rest =>
    match lineStatement U l.2 with
    | some (.emit mnemonic operands) =>
      ⟨l.1, mnemonic, operands, k⟩ :: instructionsFrom (k + 1) rest
    | _ => instructionsFrom k rest

/-- The names that a line declares. -/
def lineNames (raw : Str) : List Str :=
  lineLabels U raw ++
    match lineStatement U raw with
    | some (.equ name _) => [name]
    | _ => []

/-- The names that a source declares. -/
def declared (lines : List (Loc × Str)) : List Str := lines.flatMap fun l => lineNames U l.2

end Lines

/-- What is left of a line behind a label is shorter. -/
theorem length_of_readLabel {line rest : Str} (h : readLabel U line = some (name, rest)) :
    rest.length < line.length := by
  have hstrip (text : Str) : (U.strip text).length ≤ text.length := by
    rw [Unicode.strip, stripChars]
    exact (List.rdropWhile_prefix _ _).length_le.trans (List.dropWhile_suffix _).length_le
  cases line with
  | nil => cases h
  | cons c text =>
    simp only [readLabel] at h
    split_ifs at h
    split at h
    · next rest' hcolon =>
      obtain ⟨-, rfl⟩ := Prod.mk.inj (Option.some_inj.mp h)
      have hdrop (P : Char → Bool) (l : Str) : (l.dropWhile P).length ≤ l.length :=
        (List.dropWhile_suffix P).length_le
      have hlength := (hdrop U.isSpace _).trans (hdrop (fun c => c.isAlphanum || c = '_') text)
      rw [hcolon, List.length_cons] at hlength
      have := hstrip rest'
      rw [List.length_cons]
      omega
    · cases h

/-- **The fuel is enough**: as many rounds as the line has characters read all of its labels. -/
theorem readLabel_readLabels {fuel : ℕ} {line : Str} (h : line.length ≤ fuel) :
    readLabel U (readLabels U fuel line).2 = none := by
  induction fuel generalizing line with
  | zero =>
    obtain rfl := List.eq_nil_of_length_eq_zero (Nat.le_zero.mp h)
    rfl
  | succ fuel ih =>
    rw [readLabels]
    cases hlabel : readLabel U line with
    | none => exact hlabel
    | some found =>
      have hlength := length_of_readLabel hlabel
      exact ih (by omega)

/-! ### A line in the first pass -/

theorem addLabels_eq {labels : List Str} (h : addLabels p labels = .ok q) :
    q = { p with pending := p.pending ++ labels } ∧
      ∀ name ∈ labels, p.symbols.lookup name = none := by
  induction labels generalizing p with
  | nil =>
    obtain rfl := Except.ok.inj h
    simp
  | cons name labels ih =>
    rw [addLabels] at h
    by_cases hdup : (p.symbols.lookup name).isSome || p.pending.contains name
    · rw [if_pos hdup] at h
      cases h
    · rw [if_neg hdup] at h
      obtain ⟨rfl, hnew⟩ := ih h
      rw [Bool.or_eq_true, not_or] at hdup
      refine ⟨by simp, ?_⟩
      intro other hother
      rcases List.mem_cons.mp hother with rfl | hother
      · exact Option.not_isSome_iff_eq_none.mp hdup.1
      · exact hnew other hother

/-- What a line can do in the first pass: its labels are pending, and then its statement. -/
inductive LineStep (U : Unicode) (base : ℤ) (l : Loc × Str) (q : Pass Loc) : Pass Loc → Prop
  | blank (h : lineStatement U l.2 = none) : LineStep U base l q q
  | none (h : lineStatement U l.2 = some .none) : LineStep U base l q (q.bindPending base)
  | equ {name value : Str} {v : ℤ} (h : lineStatement U l.2 = some (.equ name value))
      (hnew : q.symbols.lookup name = none) (hv : parseValue U value q.symbols = .ok v) :
      LineStep U base l q { q with symbols := (name, v) :: q.symbols }
  | emit {mnemonic : Str} {operands : List Str}
      (h : lineStatement U l.2 = some (.emit mnemonic operands)) :
      LineStep U base l q ((q.bindPending base).emit l.1 mnemonic operands)

theorem lineStep_of_run {stmt : Statement} (hstatement : lineStatement U l.2 = some stmt)
    (h : stmt.run U base l.1 q = .ok p') : LineStep U base l q p' := by
  cases stmt with
  | none =>
    obtain rfl := Except.ok.inj h
    exact .none hstatement
  | emit mnemonic operands =>
    obtain rfl := Except.ok.inj h
    exact .emit hstatement
  | equ name value =>
    rw [Statement.run] at h
    by_cases hold : (q.symbols.lookup name).isSome
    · rw [if_pos hold] at h
      cases h
    · rw [if_neg hold] at h
      cases hv : parseValue U value q.symbols with
      | error e =>
        rw [hv] at h
        cases h
      | ok v =>
        rw [hv] at h
        obtain rfl := Except.ok.inj h
        exact .equ hstatement (Option.not_isSome_iff_eq_none.mp hold) hv

/-- **The first pass on a line.** -/
theorem firstPassLine_cases (h : firstPassLine U base p l = .ok p') :
    (∀ name ∈ lineLabels U l.2, p.symbols.lookup name = none) ∧
      LineStep U base l { p with pending := p.pending ++ lineLabels U l.2 } p' := by
  rw [firstPassLine] at h
  by_cases hline : stripComment U l.2 = []
  -- a blank line leaves the labels pending, and a line of labels alone does not
  · have hlabels : lineLabels U l.2 = [] := by
      rw [lineLabels, hline]
      rfl
    have hstatement : lineStatement U l.2 = none := by rw [lineStatement, if_pos hline]
    simp only [if_pos hline] at h
    obtain rfl := Except.ok.inj h
    rw [hlabels, List.append_nil]
    exact ⟨fun _ hn => absurd hn List.not_mem_nil, .blank hstatement⟩
  · simp only [if_neg hline] at h
    cases hadd : addLabels p (readLabels U (stripComment U l.2).length (stripComment U l.2)).1 with
    | error e =>
      simp only [hadd] at h
      cases h
    | ok q =>
      simp only [hadd] at h
      obtain ⟨rfl, hnew⟩ := addLabels_eq hadd
      refine ⟨hnew, ?_⟩
      cases hparse : statement U
          (readLabels U (stripComment U l.2).length (stripComment U l.2)).2 with
      | error e =>
        simp only [hparse] at h
        cases h
      | ok stmt =>
        have hstatement : lineStatement U l.2 = some stmt := by
          rw [lineStatement, if_neg hline, hparse]
          rfl
        simp only [hparse] at h
        exact lineStep_of_run hstatement h

/-! ### A part of the source -/

theorem reportAt_eq_ok {α : Type} {loc : Loc} {x : Except Refusal α} {a : α} :
    reportAt loc x = .ok a ↔ x = .ok a := by
  cases x <;> simp [reportAt, Except.mapError]

/-- The first pass on a part of the source. -/
def passLines (U : Unicode) (base : ℤ) (p : Pass Loc) (lines : List (Loc × Str)) :
    Except (AsmError Loc) (Pass Loc) :=
  lines.foldlM (fun p l => reportAt l.1 (firstPassLine U base p l)) p

theorem passLines_append {before after : List (Loc × Str)} :
    passLines U base p (before ++ after) = .ok p' ↔
      ∃ q, passLines U base p before = .ok q ∧ passLines U base q after = .ok p' := by
  simp only [passLines, List.foldlM_append]
  cases before.foldlM (fun p l => reportAt l.1 (firstPassLine U base p l)) p with
  | error e => simp [Bind.bind, Except.bind]
  | ok q => simp [Bind.bind, Except.bind]

theorem passLines_cons {rest : List (Loc × Str)} :
    passLines U base p (l :: rest) = .ok p' ↔
      ∃ q, firstPassLine U base p l = .ok q ∧ passLines U base q rest = .ok p' := by
  have hone (q : Pass Loc) :
      passLines U base p [l] = .ok q ↔ firstPassLine U base p l = .ok q := by
    rw [passLines, List.foldlM_cons, ← reportAt_eq_ok]
    cases reportAt l.1 (firstPassLine U base p l) <;>
      simp [Bind.bind, Except.bind, pure, Except.pure]
  have hsplit : passLines U base p ([l] ++ rest) = .ok p' ↔ _ := passLines_append
  simp only [hone] at hsplit
  exact hsplit

/-- **The items** are the instructions of the source. -/
theorem items_passLines (h : passLines U base p lines = .ok p') :
    p'.items = p.items ++ instructionsFrom U p.index lines ∧
      p'.index = p.index + (instructionsFrom U p.index lines).length := by
  induction lines generalizing p with
  | nil =>
    obtain rfl := Except.ok.inj h
    simp [instructionsFrom]
  | cons l rest ih =>
    obtain ⟨q, hline, hrest⟩ := passLines_cons.mp h
    obtain ⟨-, hstep⟩ := firstPassLine_cases hline
    obtain ⟨hitems, hindex⟩ := ih hrest
    rw [hitems, hindex]
    cases hstep with
    | blank hs | none hs | equ hs =>
      simp [instructionsFrom, hs, Pass.bindPending]
    | emit hs =>
      simp [instructionsFrom, hs, Pass.bindPending, Pass.emit]
      omega

/-- The names that have a value or wait for one. -/
def Pass.names (p : Pass Loc) : List Str := p.symbols.map Prod.fst ++ p.pending

theorem mem_names_bindPending : name ∈ (p.bindPending base).names ↔ name ∈ p.names := by
  simp [Pass.names, Pass.bindPending, or_comm]

/-- A line binds or leaves pending the names that it declares. -/
theorem mem_names_line (h : firstPassLine U base p l = .ok q) :
    name ∈ q.names ↔ name ∈ p.names ∨ name ∈ lineNames U l.2 := by
  obtain ⟨-, hstep⟩ := firstPassLine_cases h
  cases hstep with
  | blank hs =>
    simp [Pass.names, lineNames, hs, or_assoc]
  | none hs =>
    rw [mem_names_bindPending]
    simp [Pass.names, lineNames, hs, or_assoc]
  | equ hs =>
    simp [Pass.names, lineNames, hs]
    tauto
  | emit hs =>
    change name ∈ (Pass.bindPending base _).names ↔ _
    rw [mem_names_bindPending]
    simp [Pass.names, lineNames, hs, or_assoc]

/-- **The names** are those that the source declares. -/
theorem mem_names_passLines (h : passLines U base p lines = .ok p') :
    name ∈ p'.names ↔ name ∈ p.names ∨ name ∈ declared U lines := by
  induction lines generalizing p with
  | nil =>
    obtain rfl := Except.ok.inj h
    simp [declared]
  | cons l rest ih =>
    obtain ⟨q, hline, hrest⟩ := passLines_cons.mp h
    rw [ih hrest, mem_names_line hline, declared, declared, List.flatMap_cons, List.mem_append,
      or_assoc]

/-! ### Names and operands -/

/-- What names begin with. -/
def Nameable (U : Unicode) (name : Str) : Prop :=
  ∃ c rest, name = c :: rest ∧ U.startsName c = true

/-- No name begins with a marker. -/
theorem Nameable.head_ne (h : Nameable U name) : name.head? ≠ some '#' := by
  obtain ⟨c, rest, rfl, hc⟩ := h
  intro hmark
  obtain rfl := Option.some_inj.mp hmark
  rw [Unicode.startsName, U.xidStart_hash] at hc
  exact absurd hc (by decide)

theorem nameable_of_readLabel {line rest : Str} (h : readLabel U line = some (name, rest)) :
    Nameable U name := by
  cases line with
  | nil => cases h
  | cons c text =>
    simp only [readLabel] at h
    split_ifs at h with hc
    split at h
    · obtain ⟨rfl, -⟩ := Prod.mk.inj (Option.some_inj.mp h)
      refine ⟨c, _, rfl, ?_⟩
      rw [Unicode.startsName, Bool.or_assoc, hc, Bool.or_true]
    · cases h

theorem nameable_of_mem_readLabels {fuel : ℕ} {line : Str}
    (h : name ∈ (readLabels U fuel line).1) : Nameable U name := by
  induction fuel generalizing line with
  | zero => cases h
  | succ fuel ih =>
    rw [readLabels] at h
    cases hlabel : readLabel U line with
    | none =>
      rw [hlabel] at h
      cases h
    | some found =>
      rw [hlabel] at h
      rcases List.mem_cons.mp h with rfl | h
      · exact nameable_of_readLabel hlabel
      · exact ih h

theorem nameable_of_isIdentifier (h : U.isIdentifier name = true) : Nameable U name := by
  cases name with
  | nil => cases h
  | cons c rest =>
    refine ⟨c, rest, rfl, ?_⟩
    rw [Unicode.isIdentifier, Bool.and_eq_true] at h
    rw [Unicode.startsName, Bool.or_right_comm, h.1, Bool.true_or]

/-- What a statement takes from its line. -/
inductive StatementOf (U : Unicode) (line : Str) : Statement → Prop
  | none : StatementOf U line .none
  | equ {name value : Str} (h : U.isIdentifier name = true) : StatementOf U line (.equ name value)
  | emit {mnemonic : Str} {operands : List Str}
      (h : ∀ t ∈ operands, t ∈ splitOperands U line ∨ t = ['1']) :
      StatementOf U line (.emit mnemonic operands)

/-- **The statement of a line.** -/
theorem statement_cases {line : Str} {stmt : Statement} (h : statement U line = .ok stmt) :
    StatementOf U line stmt := by
  rw [statement] at h
  by_cases hline : line = []
  · rw [if_pos hline] at h
    obtain rfl := Except.ok.inj h
    exact .none
  rw [if_neg hline] at h
  cases hwords : splitOperands U line with
  | nil =>
    rw [hwords] at h
    cases h
  | cons first operands =>
    have hoperands : ∀ t ∈ operands, t ∈ splitOperands U line ∨ t = ['1'] := by
      intro t ht
      rw [hwords]
      exact .inl (List.mem_cons_of_mem first ht)
    simp only [hwords] at h
    by_cases hequ : U.upper first = dotEqu
    · rw [if_pos hequ] at h
      split at h
      · split_ifs at h with hid
        obtain rfl := Except.ok.inj h
        exact .equ hid
      · cases h
    rw [if_neg hequ] at h
    by_cases hword : U.upper first = dotWord
    · rw [if_pos hword] at h
      split_ifs at h
      obtain rfl := Except.ok.inj h
      exact .emit hoperands
    rw [if_neg hword] at h
    by_cases hldi : U.upper first = ['L', 'D', 'I']
    · rw [if_pos hldi] at h
      split at h
      · split_ifs at h
        obtain rfl := Except.ok.inj h
        exact .emit hoperands
      · cases h
    rw [if_neg hldi] at h
    by_cases hnop : U.upper first = ['N', 'O', 'P']
    · rw [if_pos hnop] at h
      split_ifs at h
      obtain rfl := Except.ok.inj h
      exact .emit fun t ht => .inr (List.mem_singleton.mp ht)
    · rw [if_neg hnop] at h
      obtain rfl := Except.ok.inj h
      exact .emit hoperands

/-- An operand has nothing to strip, unless it is that of a `NOP`. -/
theorem StatementOf.strip_operand {line mnemonic t : Str} {operands : List Str}
    (h : StatementOf U line (.emit mnemonic operands)) (ht : t ∈ operands) :
    U.strip t = t ∨ t = ['1'] := by
  cases h with
  | emit hoperands =>
    refine (hoperands t ht).imp_left fun hmem => stripChars_eq_self ?_
    intro c hc
    have hsep := not_sep_of_mem_words hmem c hc
    rw [Bool.or_eq_false_iff] at hsep
    exact hsep.2

/-- A statement is one of the line without its labels. -/
theorem exists_statement {raw : Str} {stmt : Statement} (h : lineStatement U raw = some stmt) :
    ∃ line, StatementOf U line stmt := by
  rw [lineStatement] at h
  split_ifs at h with hline
  refine ⟨(readLabels U (stripComment U raw).length (stripComment U raw)).2, statement_cases ?_⟩
  cases hparse : statement U
      (readLabels U (stripComment U raw).length (stripComment U raw)).2 with
  | error e =>
    rw [hparse] at h
    cases h
  | ok stmt' =>
    rw [hparse] at h
    obtain rfl := Option.some_inj.mp h
    rfl

theorem nameable_of_mem_lineNames (h : name ∈ lineNames U l.2) : Nameable U name := by
  rcases List.mem_append.mp h with h | h
  · exact nameable_of_mem_readLabels h
  · split at h
    · next hs =>
      obtain ⟨line, hline⟩ := exists_statement hs
      cases hline with
      | equ hid =>
        obtain rfl := List.mem_singleton.mp h
        exact nameable_of_isIdentifier hid
    · cases h

theorem nameable_of_mem_declared (h : name ∈ declared U lines) : Nameable U name := by
  obtain ⟨l, -, h⟩ := List.mem_flatMap.mp h
  exact nameable_of_mem_lineNames h

theorem operand_cases {k : ℕ} {it : Item Loc} (h : it ∈ instructionsFrom U k lines) {t : Str}
    (ht : t ∈ it.operands) : U.strip t = t ∨ t = ['1'] := by
  induction lines generalizing k with
  | nil => cases h
  | cons l rest ih =>
    rw [instructionsFrom] at h
    split at h
    · next mnemonic operands hs =>
      rcases List.mem_cons.mp h with rfl | h
      · obtain ⟨line, hline⟩ := exists_statement hs
        exact hline.strip_operand ht
      · exact ih h
    · exact ih h

end AsmText

end Fmma
