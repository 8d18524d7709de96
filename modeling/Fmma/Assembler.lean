import Fmma.Isa

/-!
# The assembler

`Assembler.py` from the point where a line has been split into its labels, its mnemonic and
its operands: the first pass, which collects labels and `.equ` constants and expands the
pseudo-instructions, and the second, which encodes each item against the symbol table. The
names are of any type `σ` with decidable equality.

The lexer (comments, spellings of registers and numbers) is that of `AsmText`; the output writers
are left out.
-/

namespace Fmma

namespace Assembler

/-- An operand: a number or a symbol. -/
inductive Operand (σ : Type)
  | num (v : Int)
  | sym (s : σ)

/-- One statement, its operands not yet resolved. -/
inductive Stmt (σ : Type)
  | equ (name : σ) (value : Operand σ)
  | word (value : Operand σ)
  | ldi (rd : RegId) (imm : Operand σ)
  | nop
  | rtype (op : AluOp) (rd rs : RegId)
  | itype (op : AluOp) (rd : RegId) (imm : Operand σ)
  | load (rd ra : RegId)
  | stor (rs ra : RegId)
  | branch (cond : Cond) (target : Operand σ)
  | jump (cond : Cond) (rt : RegId)

/-- A source line: the labels in front of it and the statement, if there is one. -/
structure Line (σ : Type) where
  labels : List σ
  stmt : Option (Stmt σ)

/-- `AsmError`, by what it reports. -/
inductive AsmError (σ : Type)
  | duplicateLabel (name : σ)
  | alreadyDefined (name : σ)
  | unknownSymbol (name : σ)
  | wordRange (v : Int)
  | negativeImmediate (imm : Int)
  | encode (e : EncodeError)
  | unknownInstruction
  | zeroWord
  deriving DecidableEq

/-- One emitted word before its operands are resolved: the statement and its index. -/
structure Item (σ : Type) where
  stmt : Stmt σ
  index : Nat

variable {σ : Type} [DecidableEq σ]

/-- The symbol table: labels with their absolute addresses, `.equ` names with their values. -/
abbrev Symbols (σ : Type) := List (σ × Int)

/-- `parse_value` on a number or a symbol name. -/
def parseValue (symbols : Symbols σ) : Operand σ → Except (AsmError σ) Int
  | .num v => .ok v
  | .sym s =>
    match symbols.lookup s with
    | some v => .ok v
    | none => .error (.unknownSymbol s)

/-- The state of the first pass. -/
structure Pass (σ : Type) where
  symbols : Symbols σ
  items : List (Item σ)
  index : Nat
  pending : List σ

/-- Reads the labels in front of a line. -/
def addLabels (p : Pass σ) : List σ → Except (AsmError σ) (Pass σ)
  | [] => .ok p
  | name :: rest =>
    if (p.symbols.lookup name).isSome || p.pending.contains name then
      .error (.duplicateLabel name)
    else addLabels { p with pending := p.pending ++ [name] } rest

/-- Binds the pending labels to the next word's address. -/
def bindPending (base : Int) (p : Pass σ) : Pass σ :=
  { p with
    symbols := p.pending.map (fun name => (name, base + p.index)) ++ p.symbols
    pending := [] }

/-- Emits one item. -/
def emit (stmt : Stmt σ) (p : Pass σ) : Pass σ :=
  { p with items := p.items ++ [⟨stmt, p.index⟩], index := p.index + 1 }

/-- One line of the first pass. -/
def firstPassLine (base : Int) (p : Pass σ) (line : Line σ) : Except (AsmError σ) (Pass σ) := do
  let p ← addLabels p line.labels
  match line.stmt with
  | none => return bindPending base p
  | some (.equ name value) =>
    if (p.symbols.lookup name).isSome then throw (.alreadyDefined name)
    let v ← parseValue p.symbols value
    return { p with symbols := (name, v) :: p.symbols }
  | some (.ldi rd imm) => return emit (.itype .MOV rd imm) (bindPending base p)
  | some .nop => return emit (.branch .UC (.num 1)) (bindPending base p)
  | some stmt => return emit stmt (bindPending base p)

/-- `first_pass`: the symbol table and the items. -/
def firstPass (lines : List (Line σ)) (base : Int) :
    Except (AsmError σ) (Symbols σ × List (Item σ)) := do
  let p ← lines.foldlM (firstPassLine base) ⟨[], [], 0, []⟩
  let p := bindPending base p
  return (p.symbols, p.items)

/-- An encoder's `ValueError`, reported with the source location. -/
def reported {α : Type} : Except EncodeError α → Except (AsmError σ) α
  | .ok v => .ok v
  | .error e => .error (.encode e)

/-- `encode_item`. A branch to a symbol is relative to the branch itself. -/
def encodeItem (item : Item σ) (symbols : Symbols σ) (base : Int) :
    Except (AsmError σ) Word :=
  match item.stmt with
  | .word value => do
    let v ← parseValue symbols value
    if 0 ≤ v ∧ v ≤ 0xFFFFFFFF then return BitVec.ofInt 32 v else throw (.wordRange v)
  | .load rd ra => .ok (encodeLoad rd ra)
  | .stor rs ra => .ok (encodeStor rs ra)
  | .branch cond (.num disp) => reported (encodeBranch cond disp)
  | .branch cond (.sym s) => do
    let target ← parseValue symbols (.sym s)
    reported (encodeBranch cond (target - (base + item.index)))
  | .jump cond rt => .ok (encodeJump cond rt)
  | .rtype op rd rs => .ok (encodeRtype op rd rs)
  | .itype op rd imm => do
    let v ← parseValue symbols imm
    if v < 0 then throw (.negativeImmediate v) else reported (encodeItype op rd v)
  | .equ _ _ | .ldi _ _ | .nop => throw .unknownInstruction

/-- `_assemble`: the words, refusing one the hardware would treat as HALT. -/
def assemble (lines : List (Line σ)) (base : Int) : Except (AsmError σ) (List Word) := do
  let (symbols, items) ← firstPass lines base
  let code ← items.mapM fun it => encodeItem it symbols base
  if code.any (· == 0) then throw .zeroWord
  return code

end Assembler

end Fmma
