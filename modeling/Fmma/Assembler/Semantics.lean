import Fmma.Assembler
import Fmma.Sim

/-!
# What a source means

The meaning of a source as it is written: its names stand for values, and its instruction lines act
one after the other on registers, flags and memory. Nothing here is encoded.
-/

namespace Fmma

namespace Assembler

variable {σ : Type}

/-! ### Lines and names -/

/-- The statement takes a word of the image. -/
def Stmt.isInstruction : Stmt σ → Bool
  | .equ .. => false
  | _ => true

/-- The instruction of a line. -/
def Line.instruction? (l : Line σ) : Option (Stmt σ) := l.stmt.filter Stmt.isInstruction

/-- The instruction lines, in order. -/
def instructions (lines : List (Line σ)) : List (Stmt σ) := lines.filterMap Line.instruction?

/-- A constant is defined. -/
def Defines (lines : List (Line σ)) (name : σ) (value : Operand σ) : Prop :=
  ∃ l ∈ lines, l.stmt = some (.equ name value)

variable [DecidableEq σ]

/-- The index of the first instruction that follows a label, which is that of the end of the source
when there is none. -/
def labelIndex : List (Line σ) → σ → Option ℕ
  | [], _ => none
  | l :: lines, name =>
    if name ∈ l.labels then some 0
    else (labelIndex lines name).map (· + (instructions [l]).length)

/-- The value of an operand, where names have values. -/
def Operand.value (ρ : σ → Option Int) : Operand σ → Option Int
  | .num v => some v
  | .sym name => ρ name

/-- The values of the names: a label stands for the address of the instruction that follows it, a
constant for the value it is given. -/
structure Meaning (base : ℕ) (lines : List (Line σ)) (ρ : σ → Option Int) : Prop where
  labels : ∀ name k, labelIndex lines name = some k → ρ name = some (base + k : ℕ)
  constants : ∀ name v, Defines lines name v → ρ name = v.value ρ ∧ (ρ name).isSome = true

/-- A value a name stands for. -/
inductive Means (base : ℕ) (lines : List (Line σ)) : σ → Int → Prop
  | label {name : σ} {k : ℕ} : labelIndex lines name = some k → Means base lines name (base + k : ℕ)
  | num {name : σ} {v : Int} : Defines lines name (.num v) → Means base lines name v
  | sym {name other : σ} {v : Int} : Defines lines name (.sym other) → Means base lines other v →
      Means base lines name v

/-- No name stands for two values. -/
def Unambiguous (base : ℕ) (lines : List (Line σ)) : Prop :=
  ∀ name v w, Means base lines name v → Means base lines name w → v = w

/-! ### Instructions -/

/-- The state of a source that runs. `place` is the index of the next instruction; there is none
once the image has been left. -/
structure Running where
  regs : RegId → Word
  flags : Flags
  mem : Addr → Word
  place : Option ℕ

namespace Running

/-- The instruction with an index, if the source has it. -/
def enter (len k : ℕ) : Option ℕ := if k < len then some k else none

/-- The instruction at an address. -/
def locate (base len : ℕ) (a : Addr) : Option ℕ :=
  if base ≤ a.toNat ∧ a.toNat < base + len then some (a.toNat - base) else none

/-- `Rd = Rd OP b`, and the flags of the operation. `CMP` only compares. -/
def operate (s : Running) (op : AluOp) (rd : RegId) (b : Word) (next : Option ℕ) : Running :=
  { s with
    regs :=
      if op = .CMP then s.regs else Function.update s.regs rd (alu (some op) (s.regs rd) b false).1
    flags := (alu (some op) (s.regs rd) b false).2
    place := next }

/-- Goes on at `target` when the condition holds. -/
def branch (s : Running) (cond : Cond) (target next : Option ℕ) : Running :=
  { s with place := if cond.taken s.flags.z s.flags.n then target else next }

/-- A data word that is come upon is executed. -/
def data (s : Running) (base len : ℕ) (pc : Addr) (w : Word) : Option Running :=
  let core : Core := ⟨s.regs, s.flags, pc⟩
  match decode w with
  | .halt | .undefined => none
  | d => some {
      regs := (core.execute d s.mem).regs
      flags := (core.execute d s.mem).flags
      mem := Access.applyOpt s.mem (core.access d)
      place := locate base len (core.execute d s.mem).pc }

/-- The instruction with index `i` acts. A branch goes on at a label or some words further; a jump
goes on at the address in a register. -/
def act (base : ℕ) (lines : List (Line σ)) (ρ : σ → Option Int) (s : Running) (i : ℕ) :
    Stmt σ → Option Running
  | .equ .. => none
  | .word v => (v.value ρ).bind fun x =>
      s.data base (instructions lines).length (BitVec.ofNat 10 (base + i)) (BitVec.ofInt 32 x)
  | .ldi rd imm => (imm.value ρ).map fun x =>
      s.operate .MOV rd (BitVec.ofInt 32 x) (enter (instructions lines).length (i + 1))
  | .itype op rd imm => (imm.value ρ).map fun x =>
      s.operate op rd (BitVec.ofInt 32 x) (enter (instructions lines).length (i + 1))
  | .rtype op rd rs =>
      some (s.operate op rd (s.regs rs) (enter (instructions lines).length (i + 1)))
  | .nop => some { s with place := enter (instructions lines).length (i + 1) }
  | .load rd ra => some { s with
      regs := Function.update s.regs rd (s.mem ((s.regs ra).setWidth 10))
      place := enter (instructions lines).length (i + 1) }
  | .stor rs ra => some { s with
      mem := Function.update s.mem ((s.regs ra).setWidth 10) (s.regs rs)
      place := enter (instructions lines).length (i + 1) }
  | .branch cond (.num disp) => some (s.branch cond
      (locate base (instructions lines).length (BitVec.ofInt 10 (base + i + disp)))
      (enter (instructions lines).length (i + 1)))
  | .branch cond (.sym name) => (labelIndex lines name).map fun k =>
      s.branch cond (enter (instructions lines).length k)
        (enter (instructions lines).length (i + 1))
  | .jump cond rt => some (s.branch cond
      (locate base (instructions lines).length ((s.regs rt).setWidth 10))
      (enter (instructions lines).length (i + 1)))

/-- One instruction. -/
def step (base : ℕ) (lines : List (Line σ)) (ρ : σ → Option Int) (s : Running) : Option Running :=
  s.place.bind fun i => (instructions lines)[i]?.bind (s.act base lines ρ i)

end Running

end Assembler

end Fmma
