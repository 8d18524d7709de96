import Fmma.Assembler.GuardRails
import Fmma.Lib.InStep

/-!
# The lines of a source text

Source text is read into the lines of `Assembler`, with labels, statements and operands that are
parsed, and both are assembled into the same words. What cannot be read so is what is refused in any
case, and the branch to a name with a marker.
-/

namespace Fmma

namespace AsmText

open PyStr

variable {Loc : Type}

/-! ### Reading -/

section Reading

variable (U : Unicode)

/-- An operand: a number, or the name that the token looks up. -/
def operand (token : Str) : Assembler.Operand Str :=
  match parseValue U token [] with
  | .ok v => .num v
  | .error _ => .sym (symbolName U token)

/-- The target of a branch: a number, or a name without a marker. -/
def branchTarget (token : Str) : Option (Assembler.Operand Str) :=
  match parseValue U token [] with
  | .ok v => some (.num v)
  | .error _ => if token.head? = some '#' then none else some (.sym token)

/-- An instruction with its operands. -/
def instruction (m : Str) (operands : List Str) : Option (Assembler.Stmt Str) :=
  if m = dotWord then
    match operands with
    | [] => none
    | value :: _ => some (.word (operand U value))
  else if m = ['L', 'O', 'A', 'D'] ∨ m = ['S', 'T', 'O', 'R'] then
    match operands with
    | [a, b] => do
      let a ← (parseRegister U a).toOption
      let b ← (parseRegister U b).toOption
      return if m = ['L', 'O', 'A', 'D'] then .load a b else .stor a b
    | _ => none
  else if isBranch m then
    match operands with
    | [target] => do
      let cond ← (resolveCond U m.tail).toOption
      return .branch cond (← branchTarget U target)
    | _ => none
  else if m.head? = some 'J' then
    match operands with
    | [target] => do
      let rt ← (parseRegister U target).toOption
      return .jump (← (resolveCond U m.tail).toOption) rt
    | _ => none
  else
    match aluOpcodes.lookup m with
    | some op =>
      match operands with
      | [rd, source] => do
        let rd ← (parseRegister U rd).toOption
        if isRegister U source then return .rtype op rd (← (parseRegister U source).toOption)
        else return .itype op rd (operand U source)
      | _ => none
    | none => none

/-- The statement of a line, or that there is none. -/
def Statement.read : Statement → Option (Option (Assembler.Stmt Str))
  | .none => some Option.none
  | .equ name value => some (some (.equ name (operand U value)))
  | .emit mnemonic operands => (instruction U mnemonic operands).map some

/-- The lines of a source. A blank line is none. -/
def linesOf : List (Loc × Str) → Option (List (Assembler.Line Str))
  | [] => some []
  | l :: rest =>
    let line := stripComment U l.2
    if line = [] then linesOf rest
    else do
      let (labels, behind) := readLabels U line.length line
      let stmt ← (← (statement U behind).toOption).read U
      return ⟨labels, stmt⟩ :: (← linesOf rest)

end Reading

variable {U : Unicode} {base : ℤ} {symbols : Symbols} {token : Str}

/-! ### Operands -/

/-- Both assemblers compare names in the same way. -/
theorem beq_str : (instBEqOfDecidableEq : BEq Str) = List.instBEq := lawful_beq_subsingleton _ _

theorem lookup_str (symbols : Symbols) (name : Str) :
    @List.lookup Str ℤ instBEqOfDecidableEq name symbols = symbols.lookup name := by
  rw [beq_str]

/-- The value of a token is that of the name it looks up, or it is a number. -/
theorem parseValue_eq (token : Str) (symbols : Symbols) : parseValue U token symbols =
    match symbols.lookup (symbolName U token) with
    | some v => .ok v
    | none => parseValue U token [] := by
  rw [parseValue]
  cases symbols.lookup (symbolName U token) <;> rfl

/-- A token that looks up a name is no number. -/
theorem exists_error_of_nameable (hU : U.Sound) (h : Nameable U (symbolName U token)) :
    ∃ e, parseValue U token [] = .error e := by
  obtain ⟨c, rest, hname, hc⟩ := h
  have hnumber : U.int (c :: rest) = none := hU.int_eq_none hc
  obtain ⟨-, -, hplus, hminus⟩ := hU c hc
  refine ⟨.neither token, ?_⟩
  rw [parseValue, hname]
  simp only [List.lookup_nil]
  split
  · next heq =>
    split at heq
    · next h => exact absurd (List.cons.inj h).1 hplus
    · next h => exact absurd (List.cons.inj h).1 hminus
    · rw [hnumber] at heq
      cases heq
  · rfl

theorem toOption_eq_some {α : Type} {x : Except Refusal α} {a : α} :
    x.toOption = some a ↔ x = .ok a := by
  cases x <;> simp [Except.toOption]

theorem inStep_reported {x : Except EncodeError Word} : InStep (· = ·) (reported x)
    (Assembler.reported x : Except (Assembler.AsmError Str) Word) := by
  cases x with
  | ok w => exact .ok rfl
  | error e => exact .error

section Operands

variable (hU : U.Sound) (hnames : ∀ name v, symbols.lookup name = some v → Nameable U name)

include hU hnames

/-- What a number is spelled like is no name in the table. -/
theorem lookup_of_number {v : ℤ} (h : parseValue U token [] = .ok v) :
    symbols.lookup (symbolName U token) = none := by
  rw [Option.eq_none_iff_forall_ne_some]
  intro x hx
  obtain ⟨e, he⟩ := exists_error_of_nameable hU (hnames _ _ hx)
  cases h.symm.trans he

/-- **A value**, parsed with the symbols at hand or before. -/
theorem inStep_parseValue (token : Str) : InStep (· = ·) (parseValue U token symbols)
    (Assembler.parseValue symbols (operand U token)) := by
  rw [parseValue_eq, operand]
  cases hvalue : parseValue U token [] with
  | ok v =>
    rw [lookup_of_number hU hnames hvalue]
    exact .ok rfl
  | error e =>
    simp only [Assembler.parseValue, lookup_str]
    cases symbols.lookup (symbolName U token) with
    | none => exact .error
    | some v => exact .ok rfl

/-- A name in the table is what it looks up. -/
theorem symbolName_self {v : ℤ} (hstrip : U.strip token = token ∨ token = ['1'])
    (h : symbols.lookup token = some v) : symbolName U token = token := by
  have hmark := (hnames _ _ h).head_ne
  rcases hstrip with hstrip | rfl
  · exact symbolName_bare hstrip hmark
  · obtain ⟨c, rest, hname, hc⟩ := hnames _ _ h
    obtain ⟨rfl, -⟩ := List.cons.inj hname
    refine symbolName_bare (stripChars_eq_self fun d hd => ?_) hmark
    rw [List.mem_singleton.mp hd]
    exact (hU _ hc).1

/-- **A target**, as a number of words to go or as a name. -/
theorem inStep_branch {target : Assembler.Operand Str} {cond : Cond} {k : ℕ}
    (hstrip : U.strip token = token ∨ token = ['1']) (h : branchTarget U token = some target) :
    InStep (· = ·) (do reported (encodeBranch cond (← displacement U symbols (base + k) token)))
      (Assembler.encodeItem ⟨.branch cond target, k⟩ symbols base) := by
  rw [branchTarget] at h
  cases hvalue : parseValue U token [] with
  | ok v =>
    -- a number, and no name in any spelling
    rw [hvalue] at h
    obtain rfl := Option.some_inj.mp h
    have hnone := lookup_of_number hU hnames hvalue
    have hbare : symbols.lookup token = none := by
      rw [Option.eq_none_iff_forall_ne_some]
      intro x hx
      rw [symbolName_self hU hnames hstrip hx, hx] at hnone
      cases hnone
    rw [displacement, hbare, parseValue_eq, hnone, hvalue]
    exact inStep_reported
  | error e =>
    rw [hvalue] at h
    by_cases hmark : token.head? = some '#'
    · simp only [if_pos hmark] at h
      cases h
    · simp only [if_neg hmark] at h
      obtain rfl := Option.some_inj.mp h
      simp only [Assembler.encodeItem, Assembler.parseValue, lookup_str, displacement]
      cases hlookup : symbols.lookup token with
      | some v => exact inStep_reported
      | none =>
        have hnone : symbols.lookup (symbolName U token) = none := by
          rw [Option.eq_none_iff_forall_ne_some]
          intro x hx
          rw [symbolName_of_lookup hstrip hnames hmark hx, hlookup] at hx
          cases hx
        rw [parseValue_eq, hnone, hvalue]
        exact .error

/-! ### Instructions -/

/-- **An instruction** is encoded the same. -/
theorem inStep_encodeItem {it : Item Loc} {stmt : Assembler.Stmt Str}
    (hstrip : ∀ t ∈ it.operands, U.strip t = t ∨ t = ['1'])
    (h : instruction U it.mnemonic it.operands = some stmt) :
    InStep (· = ·) (encodeItem U symbols base it)
      (Assembler.encodeItem ⟨stmt, it.index⟩ symbols base) := by
  obtain ⟨lineNo, m, operands, index⟩ := it
  dsimp only at h hstrip ⊢
  rw [instruction.eq_def] at h
  rw [encodeItem]
  dsimp only
  by_cases hword : m = dotWord
  · rw [if_pos hword] at h ⊢
    cases operands with
    | nil => cases h
    | cons value rest =>
      obtain rfl := Option.some_inj.mp h
      refine (inStep_parseValue hU hnames value).bind ?_
      rintro v _ rfl
      by_cases hv : 0 ≤ v ∧ v ≤ 0xFFFFFFFF
      · rw [if_pos hv, if_pos hv]
        exact .ok rfl
      · rw [if_neg hv, if_neg hv]
        exact .error
  rw [if_neg hword] at h ⊢
  -- what the reader has parsed, the encoder parses as well
  by_cases hmem : m = ['L', 'O', 'A', 'D'] ∨ m = ['S', 'T', 'O', 'R']
  · rw [if_pos hmem] at h ⊢
    split at h
    · next a b =>
      obtain ⟨ra, ha, h⟩ := Option.bind_eq_some_iff.mp h
      obtain ⟨rb, hb, h⟩ := Option.bind_eq_some_iff.mp h
      rw [toOption_eq_some] at ha hb
      simp only [ha, hb]
      obtain rfl := Option.some_inj.mp h
      split_ifs
      · exact .ok rfl
      · exact .ok rfl
    · cases h
  rw [if_neg hmem] at h ⊢
  by_cases hbranch : isBranch m = true
  · rw [if_pos hbranch] at h ⊢
    split at h
    · next target =>
      obtain ⟨cond, hcond, h⟩ := Option.bind_eq_some_iff.mp h
      obtain ⟨t, ht, h⟩ := Option.bind_eq_some_iff.mp h
      obtain rfl := Option.some_inj.mp h
      rw [toOption_eq_some] at hcond
      simp only [hcond]
      exact inStep_branch hU hnames (hstrip target (List.mem_singleton_self _)) ht
    · cases h
  rw [if_neg hbranch] at h ⊢
  by_cases hjump : m.head? = some 'J'
  · rw [if_pos hjump] at h ⊢
    split at h
    · next target =>
      obtain ⟨rt, hrt, h⟩ := Option.bind_eq_some_iff.mp h
      obtain ⟨cond, hcond, h⟩ := Option.bind_eq_some_iff.mp h
      obtain rfl := Option.some_inj.mp h
      rw [toOption_eq_some] at hrt hcond
      simp only [hrt, hcond]
      exact .ok rfl
    · cases h
  rw [if_neg hjump] at h ⊢
  cases hop : aluOpcodes.lookup m with
  | none =>
    rw [hop] at h
    cases h
  | some op =>
    simp only [hop] at h ⊢
    split at h
    · next rd source =>
      obtain ⟨r, hr, h⟩ := Option.bind_eq_some_iff.mp h
      rw [toOption_eq_some] at hr
      simp only [hr]
      by_cases hreg : isRegister U source = true
      · rw [if_pos hreg] at h
        obtain ⟨rs, hrs, h⟩ := Option.bind_eq_some_iff.mp h
        obtain rfl := Option.some_inj.mp h
        rw [toOption_eq_some] at hrs
        simp only [hreg, hrs]
        exact .ok rfl
      · rw [if_neg hreg] at h
        obtain rfl := Option.some_inj.mp h
        simp only [hreg]
        refine (inStep_parseValue hU hnames source).bind ?_
        rintro v _ rfl
        by_cases hneg : v < 0
        · rw [if_pos hneg, if_pos hneg]
          exact .error
        · rw [if_neg hneg, if_neg hneg]
          exact inStep_reported
    · cases h

end Operands

/-! ### Both first passes -/

/-- What is collected for an item. -/
structure ItemOf (U : Unicode) (it : Item Loc) (it' : Assembler.Item Str) : Prop where
  stmt : instruction U it.mnemonic it.operands = some it'.stmt
  index : it'.index = it.index
  stripped : ∀ t ∈ it.operands, U.strip t = t ∨ t = ['1']

/-- The first passes have seen the same. -/
structure Alike (U : Unicode) (p : Pass Loc) (q : Assembler.Pass Str) : Prop where
  symbols : q.symbols = p.symbols
  items : List.Forall₂ (ItemOf U) p.items q.items
  index : q.index = p.index
  pending : q.pending = p.pending
  names : ∀ name ∈ p.names, Nameable U name

section Passes

variable {p : Pass Loc} {q : Assembler.Pass Str} {l : Loc × Str} {lines : List (Loc × Str)}

/-- Pending labels are bound to the same address. -/
theorem Alike.bindPending (h : Alike U p q) :
    Alike U (p.bindPending base) (Assembler.bindPending base q) where
  symbols := by rw [Assembler.bindPending, Pass.bindPending, h.symbols, h.pending, h.index]
  items := h.items
  index := h.index
  pending := rfl
  names := fun name hname => h.names name (mem_names_bindPending.mp hname)

theorem Alike.emit {loc : Loc} {line mnemonic : Str} {operands : List Str}
    {stmt : Assembler.Stmt Str} (h : Alike U p q)
    (hline : StatementOf U line (.emit mnemonic operands))
    (hstmt : instruction U mnemonic operands = some stmt) :
    Alike U (p.emit loc mnemonic operands) (Assembler.emit stmt q) where
  symbols := h.symbols
  items := List.rel_append h.items (.cons ⟨hstmt, h.index, fun _ => hline.strip_operand⟩ .nil)
  index := congrArg (· + 1) h.index
  pending := h.pending
  names := h.names

theorem Alike.define {name : Str} {v : ℤ} (h : Alike U p q) (hname : Nameable U name) :
    Alike U { p with symbols := (name, v) :: p.symbols }
      { q with symbols := (name, v) :: q.symbols } where
  symbols := congrArg _ h.symbols
  items := h.items
  index := h.index
  pending := h.pending
  names := by
    intro other hother
    rcases List.mem_cons.mp hother with rfl | hother
    · exact hname
    · exact h.names other hother

/-- What is bound is a name. -/
theorem Alike.nameable {name : Str} {v : ℤ} (h : Alike U p q)
    (hv : p.symbols.lookup name = some v) : Nameable U name := by
  have hbound : (p.symbols.lookup name).isSome = true := by rw [hv]; rfl
  obtain ⟨x, hx, hname⟩ := List.lookup_isSome_iff.mp hbound
  obtain rfl := eq_of_beq hname
  exact h.names x.1 (List.mem_append_left _ (List.mem_map_of_mem hx))

theorem inStep_addLabels (h : Alike U p q) {labels : List Str}
    (hlabels : ∀ name ∈ labels, Nameable U name) :
    InStep (Alike U) (addLabels p labels) (Assembler.addLabels q labels) := by
  induction labels generalizing p q with
  | nil => exact .ok h
  | cons name rest ih =>
    rw [addLabels, Assembler.addLabels, h.symbols, h.pending, beq_str]
    split_ifs
    · exact .error
    · refine ih ⟨rfl, h.items, h.index, rfl, ?_⟩ fun name hname =>
        hlabels name (List.mem_cons_of_mem _ hname)
      intro other hother
      rw [Pass.names, ← List.append_assoc] at hother
      rcases List.mem_append.mp hother with hother | hother
      · exact h.names other hother
      · exact hlabels other (List.mem_singleton.mp hother ▸ List.mem_cons_self)

/-- What is read is no constant, and no pseudo-instruction. -/
theorem plain_of_instruction {m : Str} {operands : List Str} {stmt : Assembler.Stmt Str}
    (h : instruction U m operands = some stmt) :
    stmt.isInstruction = true ∧ stmt.expand = stmt := by
  rw [instruction.eq_def] at h
  split_ifs at h
  · split at h
    · cases h
    · obtain rfl := Option.some_inj.mp h
      exact ⟨rfl, rfl⟩
  iterate 4
    · split at h
      · simp only [Option.bind_eq_bind, Option.bind_eq_some_iff, Option.pure_def] at h
        obtain ⟨_, -, _, -, hstmt⟩ := h
        obtain rfl := Option.some_inj.mp hstmt
        exact ⟨rfl, rfl⟩
      · cases h
  · split at h
    · split at h
      · obtain ⟨rd, -, h⟩ := Option.bind_eq_some_iff.mp h
        split_ifs at h
        · obtain ⟨rs, -, h⟩ := Option.bind_eq_some_iff.mp h
          obtain rfl := Option.some_inj.mp h
          exact ⟨rfl, rfl⟩
        · obtain rfl := Option.some_inj.mp h
          exact ⟨rfl, rfl⟩
      · cases h
    · cases h

/-- The first pass of `Assembler` on a line with an instruction. -/
theorem firstPassLine_instruction {stmt : Assembler.Stmt Str} (hstmt : stmt.isInstruction = true)
    (hplain : stmt.expand = stmt) (labels : List Str) :
    Assembler.firstPassLine base q ⟨labels, some stmt⟩ = (do
      let q ← Assembler.addLabels q labels
      return Assembler.emit stmt (Assembler.bindPending base q)) := by
  cases stmt with
  | equ name value => cases hstmt
  | ldi rd imm => cases hplain
  | nop => cases hplain
  | _ => rfl

/-- **A line** in both first passes. -/
theorem inStep_firstPassLine (hU : U.Sound) (h : Alike U p q) {line : Str} {s : Statement}
    {stmt : Option (Assembler.Stmt Str)} (hline : stripComment U l.2 = line) (hne : line ≠ [])
    (hs : statement U (readLabels U line.length line).2 = .ok s) (hread : s.read U = some stmt) :
    InStep (Alike U) (firstPassLine U base p l)
      (Assembler.firstPassLine base q ⟨(readLabels U line.length line).1, stmt⟩) := by
  have hof := statement_cases hs
  have hlabels : InStep (Alike U) (addLabels p (readLabels U line.length line).1) _ :=
    inStep_addLabels h fun _ => nameable_of_mem_readLabels
  rw [firstPassLine, hline]
  simp only [if_neg hne, hs]
  cases s with
  | none =>
    obtain rfl := Option.some_inj.mp hread
    exact hlabels.bind fun p' q' h' => .ok h'.bindPending
  | equ name value =>
    obtain rfl := Option.some_inj.mp hread
    refine hlabels.bind fun p' q' h' => ?_
    have hname : Nameable U name := by
      cases hof with
      | equ hid => exact nameable_of_isIdentifier hid
    have hvalue : InStep (· = ·) (parseValue U value p'.symbols) _ :=
      inStep_parseValue hU (fun _ _ => h'.nameable) value
    change InStep (Alike U) ((Statement.equ name value).run U base l.1 p') _
    rw [Statement.run]
    simp only [h'.symbols, lookup_str]
    split_ifs
    · exact .error
    · refine hvalue.bind ?_
      rintro v _ rfl
      have hdefined : Alike U _ _ := h'.define (v := v) hname
      rw [h'.symbols] at hdefined
      exact .ok hdefined
  | emit mnemonic operands =>
    obtain ⟨stmt, hstmt, rfl⟩ := Option.map_eq_some_iff.mp hread
    obtain ⟨hinstr, hplain⟩ := plain_of_instruction hstmt
    rw [firstPassLine_instruction hinstr hplain]
    exact hlabels.bind fun p' q' h' => .ok (h'.bindPending.emit hof hstmt)

/-- **The first passes** over a source and its lines. -/
theorem inStep_passLines (hU : U.Sound) (h : Alike U p q) {ls : List (Assembler.Line Str)}
    (hlines : linesOf U lines = some ls) :
    InStep (Alike U) (passLines U base p lines) (ls.foldlM (Assembler.firstPassLine base) q) := by
  induction lines generalizing p q ls with
  | nil =>
    obtain rfl := Option.some_inj.mp hlines
    exact .ok h
  | cons l rest ih =>
    rw [linesOf] at hlines
    by_cases hblank : stripComment U l.2 = []
    · simp only [if_pos hblank] at hlines
      have hline : firstPassLine U base p l = .ok p := by
        rw [firstPassLine]
        simp only [if_pos hblank]
        rfl
      have hskip : passLines U base p (l :: rest) = passLines U base p rest := by
        rw [passLines, List.foldlM_cons, hline]
        rfl
      rw [hskip]
      exact ih h hlines
    · simp only [if_neg hblank] at hlines
      obtain ⟨s, hs, hlines⟩ := Option.bind_eq_some_iff.mp hlines
      obtain ⟨stmt, hread, hlines⟩ := Option.bind_eq_some_iff.mp hlines
      obtain ⟨ls', hrest, hlines⟩ := Option.bind_eq_some_iff.mp hlines
      obtain rfl := Option.some_inj.mp hlines
      rw [passLines, List.foldlM_cons, List.foldlM_cons]
      exact (inStep_firstPassLine hU h rfl hblank (toOption_eq_some.mp hs) hread).mapError.bind
        fun p' q' h' => ih h' hrest

/-- **Source text is assembled as its lines are**: both are refused, or give the same words. -/
theorem inStep_assemble (hU : U.Sound) {ls : List (Assembler.Line Str)}
    (hlines : linesOf U lines = some ls) :
    InStep (fun out code => out.code = code) (assemble U lines base)
      (Assembler.assemble ls base) := by
  have hstart : Alike U (Pass.start : Pass Loc) ⟨[], [], 0, []⟩ :=
    ⟨rfl, .nil, rfl, rfl, fun _ hname => absurd hname List.not_mem_nil⟩
  have hfirst : InStep (fun x y => y.1 = x.1 ∧ List.Forall₂ (ItemOf U) x.2 y.2 ∧
      ∀ name v, x.1.lookup name = some v → Nameable U name) (firstPass U lines base)
      (Assembler.firstPass ls base) := by
    refine (inStep_passLines hU hstart hlines).bind fun p q h => .ok ?_
    have hbound : Alike U (p.bindPending base) (Assembler.bindPending base q) := h.bindPending
    exact ⟨hbound.symbols, hbound.items, fun _ _ => hbound.nameable⟩
  refine hfirst.bind ?_
  rintro ⟨_, items⟩ ⟨symbols, items'⟩ ⟨rfl, hitems, hnames⟩
  have hwords : InStep (List.Forall₂ (· = ·))
      (items.mapM fun it => reportAt it.lineNo (encodeItem U symbols base it))
      (items'.mapM fun it => Assembler.encodeItem it symbols base) := by
    refine InStep.mapM hitems fun it it' h => InStep.mapError ?_
    have hencode : InStep (· = ·) (encodeItem U symbols base it) _ :=
      inStep_encodeItem hU hnames h.stripped h.stmt
    rw [← h.index] at hencode
    exact hencode
  refine hwords.returned.bind ?_
  rintro code code' ⟨hcode, hsame⟩
  obtain rfl : code = code' := by rwa [List.forall₂_eq_eq_eq] at hsame
  have hlength := (Assembler.forall₂_of_mapM hcode).length_eq
  have hzip : (items.zip code).map Prod.snd = code := List.map_snd_zip hlength.ge
  have hzero : code.any (· == 0) = ((items.zip code).find? fun x => x.2 == 0).isSome := by
    conv_lhs => rw [← hzip, List.any_map]
    rw [Bool.eq_iff_iff, List.any_eq_true, List.find?_isSome]
    rfl
  rw [hzero]
  cases (items.zip code).find? fun x => x.2 == 0 with
  | some x => exact .error
  | none => exact .ok rfl

/-! ### What can be read -/

/-- What a branch is encoded with can be read, but for a marker in front of a name. -/
theorem exists_branchTarget {address disp : ℤ}
    (hnames : ∀ name v, symbols.lookup name = some v → Nameable U name)
    (h : displacement U symbols address token = .ok disp)
    (hbare : ∀ rest, token = '#' :: rest → symbols.lookup (symbolName U ('#' :: rest)) = none) :
    ∃ target, branchTarget U token = some target := by
  rw [branchTarget]
  cases hvalue : parseValue U token [] with
  | ok v => exact ⟨.num v, rfl⟩
  | error e =>
    by_cases hmark : token.head? = some '#'
    · -- neither the token nor its name is in the table
      obtain ⟨rest, rfl⟩ := List.head?_eq_some_iff.mp hmark
      have hnone : symbols.lookup ('#' :: rest) = none := by
        rw [Option.eq_none_iff_forall_ne_some]
        intro v hv
        exact (hnames _ _ hv).head_ne hmark
      rw [displacement, hnone, parseValue_eq, hbare rest rfl, hvalue] at h
      cases h
    · exact ⟨.sym token, if_neg hmark⟩

/-- What is encoded can be read, but for a marker in front of a name. -/
theorem exists_instruction {it : Item Loc} {w : Word}
    (hnames : ∀ name v, symbols.lookup name = some v → Nameable U name)
    (h : encodeItem U symbols base it = .ok w)
    (hbare : isBranch it.mnemonic = true → ∀ rest, it.operands = ['#' :: rest] →
      symbols.lookup (symbolName U ('#' :: rest)) = none) :
    ∃ stmt, instruction U it.mnemonic it.operands = some stmt := by
  rw [instruction.eq_def]
  cases encodeItem_cases h with
  | word hm hops hv =>
    simp only [hm, hops]
    exact ⟨_, rfl⟩
  | load hm hops ha hb | stor hm hops ha hb =>
    simp only [hm, hops, ha, hb, Except.toOption]
    exact ⟨_, rfl⟩
  | branch hm hops hdisp hcond henc =>
    obtain ⟨t, ht⟩ := exists_branchTarget hnames hdisp fun rest htarget =>
      hbare hm rest (htarget ▸ hops)
    obtain ⟨hword, hmem⟩ := other_of_head (.inl (head_of_isBranch hm))
    simp only [if_neg hword, if_neg hmem, if_pos hm, hops, hcond, ht, Except.toOption]
    exact ⟨_, rfl⟩
  | jump hm hops hrt hcond =>
    obtain ⟨hword, hmem⟩ := other_of_head (.inr hm)
    have hbranch : ¬isBranch it.mnemonic = true := by
      intro hbranch
      cases hm.symm.trans (head_of_isBranch hbranch)
    simp only [if_neg hword, if_neg hmem, if_neg hbranch, if_pos hm, hops, hrt, hcond,
      Except.toOption]
    exact ⟨_, rfl⟩
  | rtype hm hops hrd hreg hrs =>
    obtain ⟨hword, hmem, hbranch, hjump⟩ := other_of_lookup hm
    simp only [if_neg hword, if_neg hmem, if_neg hbranch, if_neg hjump, hm, hops, hrd, hreg, hrs,
      Except.toOption]
    exact ⟨_, rfl⟩
  | itype hm hops hrd hreg henc =>
    obtain ⟨hword, hmem, hbranch, hjump⟩ := other_of_lookup hm
    simp only [if_neg hword, if_neg hmem, if_neg hbranch, if_neg hjump, hm, hops, hrd, hreg,
      Except.toOption]
    exact ⟨_, rfl⟩

/-- What the first pass goes over can be read. -/
theorem exists_statement_of_line {p' : Pass Loc} (h : firstPassLine U base p l = .ok p')
    (hne : stripComment U l.2 ≠ []) : ∃ s,
      statement U (readLabels U (stripComment U l.2).length (stripComment U l.2)).2 = .ok s ∧
      lineStatement U l.2 = some s := by
  rw [firstPassLine] at h
  simp only [if_neg hne] at h
  obtain ⟨q, -, h⟩ := bind_eq_ok.mp h
  obtain ⟨s, hs, -⟩ := bind_eq_ok.mp h
  refine ⟨s, hs, ?_⟩
  rw [lineStatement, if_neg hne, hs]
  rfl

theorem exists_linesOf {p' : Pass Loc} {k : ℕ} (h : passLines U base p lines = .ok p')
    (hitems : ∀ it ∈ instructionsFrom U k lines,
      ∃ stmt, instruction U it.mnemonic it.operands = some stmt) :
    ∃ ls, linesOf U lines = some ls := by
  induction lines generalizing p k with
  | nil => exact ⟨[], rfl⟩
  | cons l rest ih =>
    obtain ⟨q, hline, hrest⟩ := passLines_cons.mp h
    rw [linesOf]
    by_cases hblank : stripComment U l.2 = []
    · have hnone : lineStatement U l.2 = none := by rw [lineStatement, if_pos hblank]
      simp only [if_pos hblank]
      rw [instructionsFrom, hnone] at hitems
      exact ih hrest hitems
    · obtain ⟨s, hs, hstatement⟩ := exists_statement_of_line hline hblank
      have hread : ∃ stmt, s.read U = some stmt ∧ ∃ ls, linesOf U rest = some ls := by
        rw [instructionsFrom, hstatement] at hitems
        cases s with
        | none => exact ⟨_, rfl, ih hrest hitems⟩
        | equ name value => exact ⟨_, rfl, ih hrest hitems⟩
        | emit mnemonic operands =>
          obtain ⟨stmt, hstmt⟩ := hitems _ List.mem_cons_self
          exact ⟨some stmt, congrArg (Option.map some) hstmt,
            ih hrest fun it hit => hitems it (List.mem_cons_of_mem _ hit)⟩
      obtain ⟨stmt, hstmt, ls, hls⟩ := hread
      simp only [if_neg hblank, hs, hstmt, hls, Except.toOption, Option.bind_eq_bind,
        Option.bind_some]
      exact ⟨_, rfl⟩

/-- **An accepted source** in which no branch is to a name with a marker is the text of lines, which
are assembled into the same words. -/
theorem exists_assembled (hU : U.Sound) {out : Output Loc} (h : assemble U lines base = .ok out)
    (hbare : ∀ it ∈ instructionsFrom U 0 lines, isBranch it.mnemonic = true →
      ∀ rest, it.operands = ['#' :: rest] → symbolName U ('#' :: rest) ∉ declared U lines) :
    ∃ ls, linesOf U lines = some ls ∧ Assembler.assemble ls base = .ok out.code := by
  have ha := accepted_of_assemble h
  obtain ⟨p, hpass, -, -⟩ := ha.pass
  have hitems : ∀ it ∈ instructionsFrom U 0 lines,
      ∃ stmt, instruction U it.mnemonic it.operands = some stmt := by
    intro it hit
    obtain ⟨w, hmem⟩ := ha.exists_word hit
    refine exists_instruction (fun _ _ => ha.nameable) (List.forall₂_zip ha.encoded hmem) ?_
    intro hbranch rest hops
    rw [Option.eq_none_iff_forall_ne_some]
    intro v hv
    exact hbare it hit hbranch rest hops (ha.declared_iff.mp ⟨v, hv⟩)
  obtain ⟨ls, hls⟩ := exists_linesOf hpass hitems
  refine ⟨ls, hls, (inStep_assemble hU hls).exists_ok_iff.mp ⟨out, h, rfl⟩⟩

end Passes

end AsmText

end Fmma
