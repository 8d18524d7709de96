import Fmma.Rtl.Alu
import Fmma.Lib.Clocked

/-!
# The CPU in hardware

`cpu_core.v` clock by clock: the control FSM `FSMtrial` with its registered outputs, the register
bank, the PC with its displacer, the instruction register and the flag register, all on the falling
edge, and a RAM on the rising edge that answers with its old data. The host writes through the
other port of the RAM.
-/

namespace Fmma

/-! ### The control FSM -/

/-- The states of `FSMtrial`: fetch, decode, one for each class of instruction, halt. -/
inductive FsmState
  | S0 | S1 | S2 | S3 | S4 | S5 | S6 | hlt
  deriving DecidableEq

/-- The registers of `FSMtrial`. -/
structure Fsm where
  state : FsmState
  ren : Bool
  displaceControl : BitVec 2
  ri : Bool
  pcEn : Bool
  fen : Bool
  irEn : Bool
  ls : Bool
  we : Bool
  opcode : BitVec 4
  rSrc : RegId
  rDst : RegId
  imm : Word

namespace Fsm

/-- The outputs as they are unless a state says otherwise. -/
def idle (state : FsmState) : Fsm where
  state := state
  ren := false
  displaceControl := 0b00
  ri := false
  pcEn := false
  fen := false
  irEn := true
  ls := false
  we := false
  opcode := 0
  rSrc := 0
  rDst := 0
  imm := 0

/-- The conditions of branches and jumps. Code `1100` is not decoded. -/
def condition (cond : BitVec 4) (flags : Flags) : Bool :=
  if cond = 0b0000 then flags.z
  else if cond = 0b0001 then !flags.z
  else if cond = 0b1101 then flags.z || flags.n
  else if cond = 0b0110 then flags.n
  else if cond = 0b0111 then flags.z || !flags.n
  else cond = 0b1110

/-- State `S1` on the raw memory word. -/
def decode (flags : Flags) (memin : Word) : Fsm :=
  let cls := memin.extractLsb' 12 4
  let sub := memin.extractLsb' 4 4
  let rd := memin.extractLsb' 8 4
  let rs := memin.extractLsb' 0 4
  if memin = 0 then { idle .hlt with irEn := false }
  else if cls = 0b0100 then
    let d := { idle .hlt with irEn := false, rDst := rd, displaceControl := 0b01 }
    if sub = 0b0100 then { d with rSrc := rd, we := true, pcEn := true, state := .S3 }
    else if sub = 0b0000 then
      { d with rSrc := rs, ren := true, pcEn := true, ls := true, state := .S4 }
    else if sub = 0b1100 then
      { d with
        pcEn := true
        displaceControl := if condition rd flags then 0b11 else 0b01
        state := .S6 }
    else d
  else if cls = 0b1100 then
    { idle .S5 with
      irEn := false
      rDst := rd
      pcEn := true
      displaceControl := if condition rd flags then 0b10 else 0b01 }
  else
    let d := { idle .S2 with
      irEn := false
      rDst := rd
      imm := (memin.extractLsb' 16 16 ++ memin.extractLsb' 0 8 : BitVec 24).setWidth 32
      displaceControl := 0b01
      pcEn := true
      fen := true }
    if cls = 0b0000 then { d with rSrc := rs, ri := false, opcode := sub, ren := sub != 0b1011 }
    else { d with rSrc := rd, ri := true, opcode := cls, ren := cls != 0b1011 }

/-- The falling edge. -/
def edge (f : Fsm) (rst : Bool) (flags : Flags) (memin : Word) : Fsm :=
  if rst then idle .S0
  else match f.state with
    | .S0 => idle .S1
    | .S1 => decode flags memin
    | .S2 | .S3 | .S4 | .S5 | .S6 => { idle .S0 with irEn := false }
    | .hlt => if memin = 0 then idle .hlt else idle .S1

end Fsm

/-! ### The core -/

/-- `Disp`: the next PC. -/
def displace (control : BitVec 2) (pcOld : Addr) (disp : BitVec 8) (addr : Addr) : Addr :=
  if control = 0b00 then pcOld
  else if control = 0b01 then pcOld + 1
  else if control = 0b10 then pcOld + disp.signExtend 10
  else addr

/-- The registers of `cpu_core`: `PC`, `IR`, `FR`, the register bank, and those of the FSM. -/
structure CpuCore where
  pc : Addr
  ir : Word
  fr : Flags
  regs : RegId → Word
  fsm : Fsm

namespace CpuCore

variable (c : CpuCore)

/-- `addrMUX`. -/
def rAddr : Word := c.regs (c.ir.extractLsb' 0 4)

/-- `destMUX`. -/
def rDest : Word := c.regs (c.ir.extractLsb' 8 4)

/-- `srcMUX`. -/
def rSrc2 : Word := c.regs c.fsm.rSrc

/-- `immMUX`, on the `B` input of the ALU. -/
def destImm : Word := if c.fsm.ri then c.fsm.imm else c.rSrc2

/-- `ALU`. The carry in is that of the flag register. -/
def aluOut : Word × Flags := aluFinal c.fsm.opcode c.rDest c.destImm c.fr.c

/-- `mem_addr`: the PC, but for a load or a store the address register. -/
def memAddr : Addr := if c.fsm.ls || c.fsm.we then c.rAddr.setWidth 10 else c.pc

/-- `mem_wdata`. -/
def memWdata : Word := c.rSrc2

/-- `mem_write`. -/
def memWrite : Bool := c.fsm.we

/-- The falling edge. -/
def edge (rst : Bool) (memRdata : Word) : CpuCore where
  pc :=
    if rst then 8
    else if c.fsm.pcEn then
      displace c.fsm.displaceControl c.pc (c.ir.extractLsb' 0 8) (c.rAddr.setWidth 10)
    else c.pc
  ir := if rst then 0 else if c.fsm.irEn then memRdata else c.ir
  fr := if rst then .clear else if c.fsm.fen then c.aluOut.2 else c.fr
  regs :=
    if rst then fun _ => 0
    else if c.fsm.ren then
      Function.update c.regs (c.ir.extractLsb' 8 4) (if c.fsm.ls then memRdata else c.aluOut.1)
    else c.regs
  fsm := c.fsm.edge rst c.fr memRdata

end CpuCore

/-! ### The core and the RAM -/

/-- What the host writes at a rising edge, if it writes. -/
abbrev HostWrite := Option (Addr × Word)

/-- A memory after a write of the host. -/
def HostWrite.apply (w : HostWrite) (mem : Addr → Word) : Addr → Word :=
  w.elim mem fun x => Function.update mem x.1 x.2

/-- The host does not write here. -/
theorem HostWrite.apply_of_ne {w : HostWrite} {mem : Addr → Word} {b : Addr}
    (h : ∀ a v, w = some (a, v) → a ≠ b) : w.apply mem b = mem b := by
  cases w with
  | none => rfl
  | some x => exact Function.update_of_ne (h x.1 x.2 rfl).symm x.2 mem

/-- `cpu_core` on its port of the shared RAM. -/
structure Fabric where
  core : CpuCore
  ram : Addr → Word

namespace Fabric

/-- A clock: at the rising edge the RAM is read, as it was, and written by both sides, at the
falling edge the core moves on. What is left when both write one word is undefined in hardware; here
the core's write is the later one. -/
def clock (s : Fabric) (host : HostWrite) : Fabric where
  core := s.core.edge false (s.ram s.core.memAddr)
  ram :=
    if s.core.memWrite then Function.update (host.apply s.ram) s.core.memAddr s.core.memWdata
    else host.apply s.ram

/-- The RAM is not written at one edge and one word by both sides. -/
def Apart (s : Fabric) (host : HostWrite) : Prop :=
  ∀ a v, host = some (a, v) → s.core.memWrite = true → a ≠ s.core.memAddr

theorem apart_none (s : Fabric) : s.Apart none := by
  rintro a v ⟨⟩

/-- The core has just been reset. -/
def AfterReset (s : Fabric) : Prop :=
  ∃ (c : CpuCore) (memRdata : Word), s.core = c.edge true memRdata

end Fabric

end Fmma
