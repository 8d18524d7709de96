import Fmma.Rtl.CpuCore

/-!
# What the core does with an instruction

An instruction that has been decoded is executed in one clock. What that does is said again on the
decoded instruction, so that it can be compared with the simulator.
-/

namespace Fmma

/-! ### Decoded instructions in hardware -/

/-- The ALU class in hardware: the carry of the flag register goes in, and every operation but `CMP`
writes back. -/
def Core.performAlu (c : Core) (op : Option AluOp) (rd : RegId) (b : Word) : Core where
  regs :=
    if op = some .CMP then c.regs
    else Function.update c.regs rd (alu op (c.regs rd) b c.flags.c).1
  flags := (alu op (c.regs rd) b c.flags.c).2
  pc := c.pc + 1

/-- What a decoded instruction does to the registers, the flags and the PC in hardware. -/
def Core.perform (d : Decoded) (mem : Addr → Word) (c : Core) : Core :=
  match d with
  | .rtype op rd rs => c.performAlu op rd (c.regs rs)
  | .itype op rd imm => c.performAlu op rd imm
  | d => c.execute d mem

theorem Fsm.condition_eq (cond : BitVec 4) (flags : Flags) :
    Fsm.condition cond flags = condTaken cond flags.z flags.n := by
  have hall : ∀ (cond : BitVec 4) (z n : Bool),
      Fsm.condition cond ⟨z, false, false, false, n⟩ = condTaken cond z n := by decide
  exact hall cond flags.z flags.n

/-- `CMP` has its own opcode. -/
theorem opByCode_eq_cmp_iff (opcode : BitVec 4) :
    opByCode opcode = some .CMP ↔ opcode = 0b1011 := by
  constructor
  · intro h
    exact opcode_eq h
  · rintro rfl
    rfl

namespace Fabric

variable {s : Fabric} {w : Word} {host : HostWrite}

/-- The registers, the flags and the PC. -/
def toCore (s : Fabric) : Core := ⟨s.core.regs, s.core.fr, s.core.pc⟩

/-- The FSM lets nothing but the instruction register change. -/
structure Quiet (s : Fabric) : Prop where
  ren : s.core.fsm.ren = false
  pcEn : s.core.fsm.pcEn = false
  fen : s.core.fsm.fen = false
  ls : s.core.fsm.ls = false
  we : s.core.fsm.we = false

theorem quiet_of_idle {state : FsmState} (h : s.core.fsm = Fsm.idle state) : s.Quiet := by
  refine ⟨?_, ?_, ?_, ?_, ?_⟩ <;> rw [h] <;> rfl

/-- A clock that only fetches. -/
theorem Quiet.clock (h : s.Quiet) (host : HostWrite) : (s.clock host).toCore = s.toCore ∧
    (s.clock host).ram = host.apply s.ram ∧
    (s.clock host).core.ir = (if s.core.fsm.irEn then s.ram s.core.pc else s.core.ir) ∧
    (s.clock host).core.fsm = s.core.fsm.edge false s.core.fr (s.ram s.core.pc) := by
  obtain ⟨hren, hpc, hfen, hls, hwe⟩ := h
  simp only [Fabric.clock, toCore, CpuCore.edge, CpuCore.memAddr, CpuCore.memWrite, hren, hpc, hfen,
    hls, hwe]
  exact ⟨rfl, rfl, rfl, rfl⟩

/-- A word has been decoded. -/
structure Decoding (s : Fabric) (w : Word) : Prop where
  ir : s.core.ir = w
  fsm : s.core.fsm = Fsm.decode s.core.fr w

/-- What a clock does that executes a word. -/
structure Performs (s : Fabric) (host : HostWrite) (d : Decoded) : Prop where
  core : (s.clock host).toCore = s.toCore.perform d s.ram
  ram : (s.clock host).ram = Access.applyOpt (host.apply s.ram) (s.toCore.access d)
  fsm : (s.clock host).core.fsm = { Fsm.idle .S0 with irEn := false }

/-- The registers of the FSM before an instruction of the ALU class is executed. -/
def aluFsm (rDst rSrc : RegId) (imm : Word) (ri : Bool) (opcode : BitVec 4) : Fsm :=
  { Fsm.idle .S2 with
    irEn := false
    rDst := rDst
    imm := imm
    displaceControl := 0b01
    pcEn := true
    fen := true
    rSrc := rSrc
    ri := ri
    opcode := opcode
    ren := opcode != 0b1011 }

theorem performs_alu {rd rs : RegId} {imm : Word} {ri : Bool} {opcode : BitVec 4} {d : Decoded}
    (hrd : s.core.ir.extractLsb' 8 4 = rd) (hfsm : s.core.fsm = aluFsm rd rs imm ri opcode)
    (hd : s.toCore.perform d s.ram = s.toCore.performAlu (opByCode opcode) rd
      (if ri then imm else s.core.regs rs)) (haccess : s.toCore.access d = none) :
    s.Performs host d := by
  have hout : s.core.aluOut = alu (opByCode opcode) (s.core.regs rd)
      (if ri then imm else s.core.regs rs) s.core.fr.c := by
    simp only [CpuCore.aluOut, CpuCore.rDest, CpuCore.destImm, CpuCore.rSrc2, hrd, hfsm, aluFsm,
      aluFinal_eq]
  refine ⟨?_, ?_, ?_⟩
  · rw [hd]
    by_cases hcmp : opcode = 0b1011
    · have hop : opByCode opcode = some .CMP := (opByCode_eq_cmp_iff opcode).mpr hcmp
      simp only [toCore, clock, CpuCore.edge, hout, hfsm, aluFsm, displace, Core.performAlu,
        hcmp]
      rfl
    · have hop : opByCode opcode ≠ some .CMP := fun h => hcmp ((opByCode_eq_cmp_iff opcode).mp h)
      have hren : (opcode != 0b1011) = true := bne_iff_ne.mpr hcmp
      simp only [toCore, clock, CpuCore.edge, hout, hfsm, aluFsm, displace, Core.performAlu,
        if_neg hop, hrd, hren]
      rfl
  · rw [haccess]
    simp only [clock, CpuCore.memWrite, hfsm, aluFsm]
    rfl
  · simp only [clock, CpuCore.edge, hfsm, aluFsm]
    rfl

/-- The registers of the FSM before a branch or a jump is executed. -/
def branchFsm (state : FsmState) (rDst : RegId) (taken : Bool) (control : BitVec 2) : Fsm :=
  { Fsm.idle state with
    irEn := false
    rDst := rDst
    pcEn := true
    displaceControl := if taken then control else 0b01 }

theorem performs_branch {state : FsmState} {cond : BitVec 4} {control : BitVec 2} {d : Decoded}
    (hfsm : s.core.fsm = branchFsm state cond (Fsm.condition cond s.core.fr) control)
    (hstate : state = .S5 ∨ state = .S6)
    (hd : s.toCore.perform d s.ram = s.toCore.branchTo cond
      (displace control s.core.pc (s.core.ir.extractLsb' 0 8) (s.core.rAddr.setWidth 10)))
    (haccess : s.toCore.access d = none) : s.Performs host d := by
  refine ⟨?_, ?_, ?_⟩
  · rw [hd]
    simp only [toCore, clock, CpuCore.edge, hfsm, branchFsm, Core.branchTo, ← Fsm.condition_eq]
    cases Fsm.condition cond s.core.fr <;> rfl
  · rw [haccess]
    simp only [clock, CpuCore.memWrite, hfsm, branchFsm]
    rfl
  · simp only [clock, CpuCore.edge, hfsm, branchFsm]
    rcases hstate with rfl | rfl <;> rfl

/-- **Execution.** A clock executes a decoded word. -/
theorem performs (h : s.Decoding w) (hhalt : decode w ≠ .halt) (hund : decode w ≠ .undefined)
    (host : HostWrite) : s.Performs host (decode w) := by
  obtain ⟨hir, hfsm⟩ := h
  have hw : w ≠ 0 := fun hw => hhalt (decode_eq_halt_iff.mpr hw)
  -- the cases of the FSM's decoder, in its order
  by_cases hls : w.extractLsb' 12 4 = 0b0100
  · by_cases hstor : w.extractLsb' 4 4 = 0b0100
    · have hd : decode w = .stor (w.extractLsb' 8 4) (w.extractLsb' 0 4) := by
        simp only [decode, if_neg hw, if_pos hls, if_pos hstor]
      simp only [Fsm.decode, if_neg hw, if_pos hls, if_pos hstor] at hfsm
      rw [hd]
      refine ⟨?_, ?_, ?_⟩
      · simp only [toCore, clock, CpuCore.edge, hfsm]
        rfl
      · simp only [clock, CpuCore.memWrite, CpuCore.memAddr, CpuCore.memWdata, CpuCore.rAddr,
          CpuCore.rSrc2, hfsm, hir]
        rfl
      · simp only [clock, CpuCore.edge, hfsm]
        rfl
    by_cases hload : w.extractLsb' 4 4 = 0b0000
    · have hd : decode w = .load (w.extractLsb' 8 4) (w.extractLsb' 0 4) := by
        simp only [decode, if_neg hw, if_pos hls, if_neg hstor, if_pos hload]
      simp only [Fsm.decode, if_neg hw, if_pos hls, if_neg hstor, if_pos hload] at hfsm
      rw [hd]
      refine ⟨?_, ?_, ?_⟩
      · simp only [toCore, clock, CpuCore.edge, CpuCore.memAddr, CpuCore.rAddr, hfsm, hir]
        rfl
      · simp only [clock, CpuCore.memWrite, hfsm]
        rfl
      · simp only [clock, CpuCore.edge, hfsm]
        rfl
    by_cases hjump : w.extractLsb' 4 4 = 0b1100
    · have hd : decode w = .jump (w.extractLsb' 8 4) (w.extractLsb' 0 4) := by
        simp only [decode, if_neg hw, if_pos hls, if_neg hstor, if_neg hload, if_pos hjump]
      simp only [Fsm.decode, if_neg hw, if_pos hls, if_neg hstor, if_neg hload,
        if_pos hjump] at hfsm
      rw [hd]
      refine performs_branch hfsm (.inr rfl) ?_ rfl
      rw [CpuCore.rAddr, hir]
      rfl
    · refine absurd ?_ hund
      simp only [decode, if_neg hw, if_pos hls, if_neg hstor, if_neg hload, if_neg hjump]
  by_cases hbranch : w.extractLsb' 12 4 = 0b1100
  · have hd : decode w = .branch (w.extractLsb' 8 4) (w.extractLsb' 0 8).toInt := by
      simp only [decode, if_neg hw, if_neg hls, if_pos hbranch]
    simp only [Fsm.decode, if_neg hw, if_neg hls, if_pos hbranch] at hfsm
    rw [hd]
    refine performs_branch hfsm (.inl rfl) ?_ rfl
    rw [hir]
    rfl
  by_cases hrtype : w.extractLsb' 12 4 = 0b0000
  · have hd : decode w = .rtype (opByCode (w.extractLsb' 4 4)) (w.extractLsb' 8 4)
        (w.extractLsb' 0 4) := by
      simp only [decode, if_neg hw, if_neg hls, if_neg hbranch, if_pos hrtype]
    simp only [Fsm.decode, if_neg hw, if_neg hls, if_neg hbranch, if_pos hrtype] at hfsm
    rw [hd]
    have hrd : s.core.ir.extractLsb' 8 4 = w.extractLsb' 8 4 := by rw [hir]
    exact performs_alu hrd hfsm rfl rfl
  · have hd : decode w = .itype (opByCode (w.extractLsb' 12 4)) (w.extractLsb' 8 4)
        ((w.extractLsb' 16 16 ++ w.extractLsb' 0 8 : BitVec 24).setWidth 32) := by
      simp only [decode, if_neg hw, if_neg hls, if_neg hbranch, if_neg hrtype]
    simp only [Fsm.decode, if_neg hw, if_neg hls, if_neg hbranch, if_neg hrtype] at hfsm
    rw [hd]
    have hrd : s.core.ir.extractLsb' 8 4 = w.extractLsb' 8 4 := by rw [hir]
    exact performs_alu hrd hfsm rfl rfl

end Fabric

end Fmma
