import Fmma.Isa
import Fmma.Lib.Access

/-!
# The instruction set simulator

`fmma_sim.py`, the golden reference of the CPU: the ALU, which is a transcription of
`ALUFinal`, and `Cpu.step`, which executes one instruction or one halt poll. Python's
unbounded integers are masked to 32 bits at every assignment, so registers and RAM words are
32-bit vectors; comparisons that the source makes on the unmasked integers are made on
naturals and integers here.

The architectural state is split into the `Core`, which an instruction changes on its own,
and the RAM, which it shares with the host. `legacy_shifts`, the pre-2026 shifter kept for
one regression test, and the optional execution trace are left out.
-/

namespace Fmma

/-- The 5-bit flag register `{Z, C, F, L, N}`. -/
structure Flags where
  z : Bool
  c : Bool
  f : Bool
  l : Bool
  n : Bool
  deriving DecidableEq, Repr

/-- `Flags.__init__`: every flag zero. -/
def Flags.clear : Flags := ⟨false, false, false, false, false⟩

/-! ### The ALU -/

/-- The overflow flag of an addition, from the sign bits of operands and result. -/
def addOverflow (a b res : Word) : Bool :=
  (!a.msb && !b.msb && res.msb) || (a.msb && b.msb && !res.msb)

/-- The overflow flag of a subtraction. -/
def subOverflow (a b res : Word) : Bool :=
  (a.msb ^^ b.msb) && (a.msb ^^ res.msb)

/-- The signed 5-bit shift count in the low bits of `b`. -/
def shiftAmount (b : Word) : Int :=
  if b.toNat % 32 < 16 then (b.toNat % 32 : Int) else (b.toNat % 32 : Int) - 32

/-- `alu`: the result and the flags of one ALU operation, `a` on the A input, `b` on the B
input. An operation that does not assign a flag leaves it zero. -/
def alu (op : Option AluOp) (a b : Word) (cin : Bool) : Word × Flags :=
  match op with
  | some .AND => (a &&& b, .clear)
  | some .OR => (a ||| b, .clear)
  | some .XOR => (a ^^^ b, .clear)
  | some .MOV => (b, .clear)
  | some .MUL => (a * b, .clear)
  | some .ADDU =>
      let res := a + b
      (res, ⟨res == 0, decide (0xFFFFFFFF < a.toNat + b.toNat), false, false, false⟩)
  | some .ADD =>
      let res := a + b
      (res, ⟨res == 0, false, addOverflow a b res, false, res.msb⟩)
  | some .ADDC =>
      let res := BitVec.ofNat 32 (a.toNat + b.toNat + cin.toNat)
      let bcin := BitVec.ofNat 32 (b.toNat + cin.toNat)
      (res, ⟨res == 0, decide (0xFFFFFFFF < a.toNat + b.toNat + cin.toNat),
        addOverflow a bcin res, false, res.msb⟩)
  | some .SUB =>
      let res := a - b
      let lower := decide (a.toNat < b.toNat)
      (res, ⟨res == 0, !lower, subOverflow a b res, lower, res.msb⟩)
  | some .SUBC =>
      let bcin := BitVec.ofNat 32 (b.toNat + (1 - cin.toNat))
      let res := a - bcin
      let lower := decide (a.toNat < bcin.toNat)
      (res, ⟨res == 0, !lower, subOverflow a bcin res, lower, res.msb⟩)
  | some .CMP =>
      (0, ⟨a == b, false, false, decide (a.toNat < b.toNat), decide (a.toInt < b.toInt)⟩)
  | some .LSH =>
      if 0 ≤ shiftAmount b then (a <<< (shiftAmount b).toNat, .clear)
      else (a >>> (-shiftAmount b).toNat, .clear)
  | some .ASH =>
      if 0 ≤ shiftAmount b then (a <<< (shiftAmount b).toNat, .clear)
      else (a.sshiftRight (-shiftAmount b).toNat, .clear)
  | none => (0, .clear)

/-! ### The CPU -/

/-- The CPU apart from the RAM: the register file, the flags and the program counter. -/
@[ext]
structure Core where
  regs : RegId → Word
  flags : Flags
  pc : Addr

/-- The CPU with the shared RAM and the simulator's counters. -/
@[ext]
structure Cpu extends Core where
  mem : Addr → Word
  cycles : Nat
  instructions : Nat
  haltedPolls : Nat

/-- `HaltForever` as `step` raises it on an undefined word: the word and where it is. -/
structure HaltForever where
  word : Word
  pc : Addr

/-- The word index a register holds: its low ten bits (`& MASK10`). -/
def Core.addr (c : Core) (r : RegId) : Addr := (c.regs r).setWidth 10

/-- The ALU part of `step`: `Rd op b`, written back unless the operation is `CMP`, with the
flag register loaded in any case. -/
def Core.executeAlu (c : Core) (op : Option AluOp) (rd : RegId) (b : Word) : Core where
  regs := if writesResult op then Function.update c.regs rd (alu op (c.regs rd) b false).1
    else c.regs
  flags := (alu op (c.regs rd) b false).2
  pc := c.pc + 1

/-- Moves on to `target` when the condition holds and to the next word otherwise. -/
def Core.branchTo (c : Core) (cond : BitVec 4) (target : Addr) : Core :=
  { c with pc := if condTaken cond c.flags.z c.flags.n then target else c.pc + 1 }

/-- What one decoded instruction does to the registers, the flags and the PC. -/
def Core.execute (d : Decoded) (mem : Addr → Word) (c : Core) : Core :=
  match d with
  | .rtype op rd rs => c.executeAlu op rd (c.regs rs)
  | .itype op rd imm => c.executeAlu op rd imm
  | .load rd ra => { c with regs := Function.update c.regs rd (mem (c.addr ra)), pc := c.pc + 1 }
  | .stor _ _ => { c with pc := c.pc + 1 }
  | .branch cond disp => c.branchTo cond (c.pc + BitVec.ofInt 10 disp)
  | .jump cond rt => c.branchTo cond (c.addr rt)
  | .halt => c
  | .undefined => c

/-- The access a decoded instruction makes to the data in the RAM. -/
def Core.access (d : Decoded) (c : Core) : Option (Access Addr Word) :=
  match d with
  | .load _ ra => some (.load (c.addr ra))
  | .stor rs ra => some (.store (c.addr ra) (c.regs rs))
  | _ => none

/-- The register an instruction writes. -/
def Decoded.target : Decoded → Option RegId
  | .rtype op rd _ => if writesResult op then some rd else none
  | .itype op rd _ => if writesResult op then some rd else none
  | .load rd _ => some rd
  | _ => none

/-- **Frame.** An instruction changes no register but its target. -/
theorem Core.execute_regs_of_ne {d : Decoded} {mem : Addr → Word} {c : Core} {i : RegId}
    (h : d.target ≠ some i) : (c.execute d mem).regs i = c.regs i := by
  have hupdate : ∀ (rd : RegId) (v : Word), some rd ≠ some i →
      Function.update c.regs rd v i = c.regs i := fun rd v hne =>
    Function.update_of_ne (fun heq => hne (congrArg some heq.symm)) v c.regs
  cases d with
  | rtype op rd rs =>
    simp only [Decoded.target] at h
    simp only [execute, executeAlu]
    split_ifs with hw
    · exact hupdate rd _ (by rwa [if_pos hw] at h)
    · rfl
  | itype op rd imm =>
    simp only [Decoded.target] at h
    simp only [execute, executeAlu]
    split_ifs with hw
    · exact hupdate rd _ (by rwa [if_pos hw] at h)
    · rfl
  | load rd ra => exact hupdate rd _ h
  | halt => rfl
  | undefined => rfl
  | stor rs ra => rfl
  | branch cond disp => rfl
  | jump cond rt => rfl

/-- `CYCLES_PER_INSTRUCTION`. -/
def cyclesPerInstruction : Nat := 3

/-- `CYCLES_PER_HALT_POLL`. -/
def cyclesPerHaltPoll : Nat := 1

/-- `Cpu.step`: execute one instruction or one halt poll, and return what was decoded. -/
def Cpu.step (c : Cpu) : Except HaltForever (Decoded × Cpu) :=
  match decode (c.mem c.pc) with
  | .halt => .ok (.halt, { c with
      cycles := c.cycles + cyclesPerHaltPoll
      haltedPolls := c.haltedPolls + 1 })
  | .undefined => .error ⟨c.mem c.pc, c.pc⟩
  | d => .ok (d, {
      toCore := c.toCore.execute d c.mem
      mem := Access.applyOpt c.mem (c.toCore.access d)
      cycles := c.cycles + cyclesPerInstruction
      instructions := c.instructions + 1
      haltedPolls := c.haltedPolls })

/-- `Cpu.write`, also the host's store to the shared RAM. -/
def Cpu.write (c : Cpu) (a : Addr) (v : Word) : Cpu :=
  { c with mem := Function.update c.mem a v }

/-- The instruction the CPU executes next. -/
def Cpu.current (c : Cpu) : Decoded := decode (c.mem c.pc)

/-- `c` steps to `c'`. -/
def Cpu.Steps (c c' : Cpu) : Prop := c.step = .ok (c.current, c')

/-- **What one step does.** Unless the word is undefined, the registers, the flags and the PC
change as the decoded instruction says, and the RAM by the access it makes. -/
theorem Cpu.Steps.eq {c c' : Cpu} (h : c.Steps c') :
    c'.toCore = c.toCore.execute c.current c.mem ∧
      c'.mem = Access.applyOpt c.mem (c.toCore.access c.current) := by
  simp only [Cpu.Steps, Cpu.step, Cpu.current] at h ⊢
  split at h
  · next hd =>
    simp only [hd, Except.ok.injEq, Prod.mk.injEq, true_and] at h
    subst h
    rw [hd]
    exact ⟨rfl, rfl⟩
  · cases h
  · simp only [Except.ok.injEq, Prod.mk.injEq, true_and] at h
    subst h
    exact ⟨rfl, rfl⟩

/-- The CPU steps unless the word at the PC is undefined. -/
theorem Cpu.exists_steps {c : Cpu} (h : c.current ≠ .undefined) : ∃ c', c.Steps c' := by
  simp only [Cpu.current, Cpu.Steps, Cpu.step] at h ⊢
  split
  · next hd => exact ⟨_, by rw [hd]⟩
  · next hd => exact absurd hd h
  · exact ⟨_, rfl⟩

end Fmma
