import Fmma.Isa
import Fmma.Lib.PyStr

/-!
# The assembler on source text

`Assembler.py` from the source file to the words it is about to write: `.include`, comments, labels,
the spellings of registers, numbers and names, both passes and the check of the size. What is
written then, and what the line numbers of a message look like, is left out.
-/

namespace Fmma

namespace AsmText

open PyStr

/-- What an `AsmError` reports, or the exception of Python that ends the assembler instead. -/
inductive Refusal
  | tooDeep
  | cycle
  | noFileName
  | noFile
  | pathTraversal
  | register (token : Str)
  | registerRange (token : Str)
  | neither (token : Str)
  | duplicateLabel (name : Str)
  | equOperands
  | constantName (name : Str)
  | alreadyDefined (name : Str)
  | operands (mnemonic : Str)
  | ldiRegister
  | wordRange (v : ℤ)
  | unimplementedCondition (key : Str)
  | unknownCondition (cond : Str)
  | negativeImmediate (imm : ℤ)
  | encode (e : EncodeError)
  | unknownInstruction (mnemonic : Str)
  | zeroWord
  | doesNotFit (length : ℕ)
  | indexError
  deriving DecidableEq

/-- A refusal, and the location it is reported with. -/
structure AsmError (Loc : Type) where
  loc : Loc
  what : Refusal
  deriving DecidableEq

/-- `_err`: a refusal is reported with its location. -/
def reportAt {Loc α : Type} (loc : Loc) : Except Refusal α → Except (AsmError Loc) α :=
  Except.mapError fun what => ⟨loc, what⟩

section Lexer

variable (U : Unicode)

/-! ### Lexing helpers -/

/-- What may follow the `#` of an operand. -/
def startsValue : Str → Bool
  | [] => false
  | c :: _ => U.isAlnum c || c = '+' || c = '-' || c = '_'

/-- A line up to its comment. -/
def uncommented : Str → Str
  | [] => []
  | c :: rest =>
    if c = '%' ∨ c = ';' then []
    else if c = '#' then if startsValue U rest then c :: uncommented rest else []
    else c :: uncommented rest

/-- `strip_comment`. -/
def stripComment (line : Str) : Str := U.strip (uncommented U line)

/-- What `REGISTER_RE` matches: an `R` in either case and decimal digits, and their number. -/
def matchRegister (token : Str) : Option ℕ :=
  match U.strip token with
  | r :: d :: ds =>
    if r = 'R' ∨ r = 'r' then
      (d :: ds).foldlM (fun n c => (U.decimal c).map fun v => n * 10 + v) 0
    else none
  | _ => none

/-- `is_register`. -/
def isRegister (token : Str) : Bool := (matchRegister U token).isSome

/-- `parse_register`. -/
def parseRegister (token : Str) : Except Refusal RegId :=
  match matchRegister U token with
  | none => .error (.register token)
  | some n => if n ≤ 15 then .ok (BitVec.ofNat 4 n) else .error (.registerRange token)

/-- The symbol table: what has been assigned to a name, the latest first. -/
abbrev Symbols := List (Str × ℤ)

/-- A token without the marker of an immediate: the name it looks up. -/
def symbolName (token : Str) : Str :=
  match U.strip token with
  | '#' :: rest => U.strip rest
  | tok => tok

/-- `parse_value`. -/
def parseValue (token : Str) (symbols : Symbols) : Except Refusal ℤ :=
  let tok := symbolName U token
  match symbols.lookup tok with
  | some v => .ok v
  | none =>
    let value :=
      match tok with
      | '+' :: rest => U.int rest
      | '-' :: rest => (U.int rest).map fun v => -v
      | _ => U.int tok
    match value with
    | some v => .ok v
    | none => .error (.neither token)

/-- `split_operands`. -/
def splitOperands (text : Str) : List Str :=
  words (fun c => c = ',' || U.isSpace c) (U.strip text)

/-- The pattern of a label, and what is left of the line behind it. -/
def readLabel (line : Str) : Option (Str × Str) :=
  let isWordChar := fun c : Char => c.isAlphanum || c = '_'
  match line with
  | [] => none
  | c :: rest =>
    if c.isAlpha || c = '_' then
      match (rest.dropWhile isWordChar).dropWhile U.isSpace with
      | ':' :: rest' => some (c :: rest.takeWhile isWordChar, U.strip rest')
      | _ => none
    else none

/-- The labels in front of a line, as many as there may be, and the rest. -/
def readLabels : ℕ → Str → List Str × Str
  | 0, line => ([], line)
  | fuel + 1, line =>
    match readLabel U line with
    | none => ([], line)
    | some (name, rest) =>
      let (names, rest) := readLabels fuel rest
      (name :: names, rest)

end Lexer

/-! ### Pass 1 -/

/-- The mnemonics that the first pass looks at itself. -/
def dotEqu : Str := ['.', 'E', 'Q', 'U']

@[inherit_doc dotEqu]
def dotWord : Str := ['.', 'W', 'O', 'R', 'D']

/-- One emitted word, before its operands are resolved. -/
structure Item (Loc : Type) where
  lineNo : Loc
  mnemonic : Str
  operands : List Str
  index : ℕ
  deriving DecidableEq

/-- What stands on a line behind its labels. The pseudo-instructions are those they stand for. -/
inductive Statement
  | none
  | equ (name value : Str)
  | emit (mnemonic : Str) (operands : List Str)

/-- The state of the first pass. -/
structure Pass (Loc : Type) where
  symbols : Symbols
  items : List (Item Loc)
  index : ℕ
  pending : List Str
  deriving DecidableEq

variable {Loc : Type}

/-- Labels that are read in front of a statement. -/
def addLabels (p : Pass Loc) : List Str → Except Refusal (Pass Loc)
  | [] => .ok p
  | name :: rest =>
    if (p.symbols.lookup name).isSome || p.pending.contains name then
      .error (.duplicateLabel name)
    else addLabels { p with pending := p.pending ++ [name] } rest

namespace Pass

/-- The pending labels resolve to the address of the next word. -/
def bindPending (base : ℤ) (p : Pass Loc) : Pass Loc :=
  { p with
    symbols := p.pending.map (fun name => (name, base + p.index)) ++ p.symbols
    pending := [] }

/-- A word is emitted. -/
def emit (loc : Loc) (mnemonic : Str) (operands : List Str) (p : Pass Loc) : Pass Loc :=
  { p with
    items := p.items ++ [⟨loc, mnemonic, operands, p.index⟩]
    index := p.index + 1 }

end Pass

section Assemble

variable (U : Unicode)

/-- The statement of a line without labels. -/
def statement (line : Str) : Except Refusal Statement :=
  if line = [] then .ok .none
  else
    match splitOperands U line with
    | [] => .error .indexError
    | first :: operands =>
      let mnemonic := U.upper first
      if mnemonic = dotEqu then
        match operands with
        | [name, value] =>
          if U.isIdentifier name then .ok (.equ name value) else .error (.constantName name)
        | _ => .error .equOperands
      else if mnemonic = dotWord then
        if operands.length = 1 then .ok (.emit dotWord operands) else .error (.operands mnemonic)
      else if mnemonic = ['L', 'D', 'I'] then
        match operands with
        | [rd, imm] =>
          if isRegister U imm then .error .ldiRegister
          else .ok (.emit ['M', 'O', 'V'] [rd, imm])
        | _ => .error (.operands mnemonic)
      else if mnemonic = ['N', 'O', 'P'] then
        if operands = [] then .ok (.emit ['B', 'U', 'C'] [['1']]) else .error (.operands mnemonic)
      else .ok (.emit mnemonic operands)

/-- What a statement does in the first pass. -/
def Statement.run (base : ℤ) (loc : Loc) (p : Pass Loc) : Statement → Except Refusal (Pass Loc)
  | .none => .ok (p.bindPending base)
  | .equ name value => do
    -- the pending labels are not looked at, and stay pending
    if (p.symbols.lookup name).isSome then throw (.alreadyDefined name)
    let v ← parseValue U value p.symbols
    return { p with symbols := (name, v) :: p.symbols }
  | .emit mnemonic operands => .ok ((p.bindPending base).emit loc mnemonic operands)

/-- A line of the source, its labels and its statement, in the first pass. -/
def firstPassLine (base : ℤ) (p : Pass Loc) (located : Loc × Str) : Except Refusal (Pass Loc) := do
  let line := stripComment U located.2
  if line = [] then return p
  let (labels, rest) := readLabels U line.length line
  let p ← addLabels p labels
  (← statement U rest).run U base located.1 p

/-- The state before the first line. -/
def Pass.start : Pass Loc := ⟨[], [], 0, []⟩

/-- `first_pass`. -/
def firstPass (lines : List (Loc × Str)) (base : ℤ) :
    Except (AsmError Loc) (Symbols × List (Item Loc)) := do
  let p ← lines.foldlM (fun p l => reportAt l.1 (firstPassLine U base p l)) Pass.start
  let p := p.bindPending base
  return (p.symbols, p.items)

/-! ### Pass 2 -/

/-- `CONDITIONS`. -/
def conditions : List (Str × Cond) :=
  [(['E', 'Q'], .EQ), (['N', 'E'], .NE), (['L', 'T'], .LT), (['G', 'E'], .GE), (['L', 'E'], .LE),
    (['U', 'C'], .UC)]

/-- `COND_ALIASES`. -/
def condAliases : List (Str × Str) := [(['Z'], ['E', 'Q']), (['N', 'Z'], ['N', 'E'])]

/-- The keys of `UNIMPLEMENTED_CONDITIONS`. -/
def unimplementedConditions : List Str :=
  [['G', 'T'], ['C', 'S'], ['C', 'C'], ['H', 'I'], ['L', 'S'], ['L', 'O'], ['H', 'S'], ['F', 'S'],
    ['F', 'C']]

/-- `ALU_OPCODES`. -/
def aluOpcodes : List (Str × AluOp) :=
  [(['A', 'N', 'D'], .AND), (['O', 'R'], .OR), (['X', 'O', 'R'], .XOR), (['A', 'D', 'D'], .ADD),
    (['A', 'D', 'D', 'U'], .ADDU), (['A', 'D', 'D', 'C'], .ADDC), (['L', 'S', 'H'], .LSH),
    (['S', 'U', 'B'], .SUB), (['S', 'U', 'B', 'C'], .SUBC), (['C', 'M', 'P'], .CMP),
    (['A', 'S', 'H'], .ASH), (['M', 'U', 'L'], .MUL), (['M', 'O', 'V'], .MOV)]

/-- `_resolve_cond`. -/
def resolveCond (cond : Str) : Except Refusal Cond :=
  let key := U.upper cond
  let key := (condAliases.lookup key).getD key
  match conditions.lookup key with
  | some c => .ok c
  | none =>
    if key ∈ unimplementedConditions then .error (.unimplementedCondition key)
    else .error (.unknownCondition cond)

/-- A `ValueError` of an encoder. -/
def reported {α : Type} : Except EncodeError α → Except Refusal α := Except.mapError .encode

/-- A mnemonic that is taken for a branch. -/
def isBranch (m : Str) : Bool := m.head? = some 'B' && 2 ≤ m.length && m ≠ ['B', 'A', 'S', 'E']

/-- The displacement of a branch at an address: to a symbol, or the value of the operand. -/
def displacement (symbols : Symbols) (address : ℤ) (target : Str) : Except Refusal ℤ :=
  -- the operand as it is written, with its marker
  match symbols.lookup target with
  | some v => .ok (v - address)
  | none => parseValue U target symbols

/-- `encode_item`. -/
def encodeItem (symbols : Symbols) (base : ℤ) (item : Item Loc) : Except Refusal Word :=
  let m := item.mnemonic
  if m = dotWord then
    match item.operands with
    | [] => .error .indexError
    | value :: _ => do
      let v ← parseValue U value symbols
      if 0 ≤ v ∧ v ≤ 0xFFFFFFFF then return BitVec.ofInt 32 v else throw (.wordRange v)
  else if m = ['L', 'O', 'A', 'D'] ∨ m = ['S', 'T', 'O', 'R'] then
    match item.operands with
    | [a, b] => do
      let a ← parseRegister U a
      let b ← parseRegister U b
      return if m = ['L', 'O', 'A', 'D'] then encodeLoad a b else encodeStor a b
    | _ => .error (.operands m)
  else if isBranch m then
    match item.operands with
    | [target] => do
      let disp ← displacement U symbols (base + item.index) target
      reported (encodeBranch (← resolveCond U m.tail) disp)
    | _ => .error (.operands m)
  else if m.head? = some 'J' then
    match item.operands with
    | [target] => do
      let rt ← parseRegister U target
      return encodeJump (← resolveCond U m.tail) rt
    | _ => .error (.operands m)
  else
    match aluOpcodes.lookup m with
    | some op =>
      match item.operands with
      | [rd, source] => do
        let rd ← parseRegister U rd
        if isRegister U source then return encodeRtype op rd (← parseRegister U source)
        let imm ← parseValue U source symbols
        if imm < 0 then throw (.negativeImmediate imm)
        reported (encodeItype op rd imm)
      | _ => .error (.operands m)
    | none => .error (.unknownInstruction m)

/-- What the assembler hands to the writers. -/
structure Output (Loc : Type) where
  symbols : Symbols
  code : List Word
  items : List (Item Loc)
  deriving DecidableEq

/-- `_assemble`. -/
def assemble (lines : List (Loc × Str)) (base : ℤ) : Except (AsmError Loc) (Output Loc) := do
  let (symbols, items) ← firstPass U lines base
  let code ← items.mapM fun it => reportAt it.lineNo (encodeItem U symbols base it)
  match (items.zip code).find? fun x => x.2 == 0 with
  | some x => throw ⟨x.1.lineNo, .zeroWord⟩
  | none => return ⟨symbols, code, items⟩

end Assemble

/-! ### Source files -/

/-- The files of the machine: the text of a file, if there is one, what a path resolves to, the file
of a name in the directory of a path, and whether a path has `..` in it. -/
structure Files (Path : Type) where
  text : Path → Option Str
  resolve : Path → Path
  sibling : Path → Str → Path
  climbs : Path → Bool

/-- `MAX_INCLUDE_DEPTH`. -/
abbrev maxIncludeDepth : ℕ := 8

section Main

variable {Path : Type} [DecidableEq Path] (U : Unicode) (fs : Files Path)

/-- The argument of an `.include`, if the line is one. -/
def includeArg (raw : Str) : Option Str :=
  let stripped := stripComment U raw
  if U.lower (stripped.take 8) = ['.', 'i', 'n', 'c', 'l', 'u', 'd', 'e'] then
    some (stripChars (· = '\x27') (stripChars (· = '\x22') (U.strip (stripped.drop 8))))
  else none

/-- `read_source`, so many files deep at most, inside of the files of the stack. -/
def readSource : ℕ → List Path → Path → Except (AsmError (Path × ℕ)) (List ((Path × ℕ) × Str))
  | 0, _, path => .error ⟨(path, 0), .tooDeep⟩
  | left + 1, stack, path => do
    let resolved := fs.resolve path
    if resolved ∈ stack then throw ⟨(path, 0), .cycle⟩
    match fs.text path with
    | none => throw ⟨(path, 0), .noFile⟩
    | some text => do
      let parts ← (splitlines text).zipIdx.mapM fun (raw, n) =>
        let loc := (path, n + 1)
        match includeArg U raw with
        | none => .ok [(loc, raw)]
        | some arg =>
          if arg = [] then .error ⟨loc, .noFileName⟩
          else if (fs.text (fs.sibling path arg)).isNone then .error ⟨loc, .noFile⟩
          else readSource left (stack ++ [resolved]) (fs.sibling path arg)
      return parts.flatten

/-- `main`, as far as the writers: the file is read and assembled, and the program fits the RAM. -/
def main (filename : Path) (base : ℤ) : Except (AsmError (Path × ℕ)) (Output (Path × ℕ)) := do
  if fs.climbs filename then throw ⟨(filename, 0), .pathTraversal⟩
  let src := fs.resolve filename
  if (fs.text src).isNone then throw ⟨(filename, 0), .noFile⟩
  let lines ← readSource U fs (maxIncludeDepth + 1) [] src
  let out ← assemble U lines base
  if 1024 < base + out.code.length then throw ⟨(filename, 0), .doesNotFit out.code.length⟩
  return out

end Main

end AsmText

end Fmma
