import Fmma.Rtl.Execute

/-!
# The simulator and the hardware on one word

What `Cpu.step` does with the word at the PC, against what the core does with it in three clocks
without the host: when they agree, for every word and every state.
-/

namespace Fmma

/-- What becomes of the architectural state, and whether the CPU goes on. -/
@[ext]
structure Effect where
  core : Core
  ram : Addr → Word
  progress : Bool

/-- The effect of `Cpu.step`: a halt poll does not go on, and an undefined word raises. -/
def Cpu.effect (c : Cpu) : Effect :=
  match c.step with
  | .ok (d, c') => ⟨c'.toCore, c'.mem, d ≠ .halt⟩
  | .error _ => ⟨c.toCore, c.mem, false⟩

namespace Fabric

/-- The fabric after some clocks without the host. -/
def alone (s : Fabric) (n : ℕ) : Fabric := Clocked.after clock s (fun _ => none) n

/-- The effect of the hardware: three clocks, after which the core fetches again or does not. -/
def effect (s : Fabric) : Effect :=
  ⟨(s.alone 3).toCore, (s.alone 3).ram, (s.alone 3).core.fsm.state = .S0⟩

/-- The core is about to fetch. -/
structure Fetching (s : Fabric) : Prop where
  quiet : s.Quiet
  state : s.core.fsm.state = .S0

end Fabric

/-! ### The operations of the ALU class -/

/-- The operation of the ALU class, and its destination. -/
def Decoded.operation : Decoded → Option (Option AluOp × RegId)
  | .rtype op rd _ => some (op, rd)
  | .itype op rd _ => some (op, rd)
  | _ => none

/-- An operation with a carry in is run with the carry clear, and one that the ALU does not have
finds zero in its destination. -/
def Decoded.Golden (d : Decoded) (c : Core) : Prop :=
  ∀ op rd, d.operation = some (op, rd) →
    ((op = some .ADDC ∨ op = some .SUBC) → c.flags.c = false) ∧ (op = none → c.regs rd = 0)

/-- Only `ADDC` and `SUBC` look at the carry. -/
theorem alu_carry {op : Option AluOp} (h : ¬(op = some .ADDC ∨ op = some .SUBC)) (a b : Word)
    (cin : Bool) : alu op a b cin = alu op a b false := by
  cases op with
  | none => rfl
  | some op =>
    cases op with
    | ADDC => exact absurd (.inl rfl) h
    | SUBC => exact absurd (.inr rfl) h
    | _ => rfl

theorem alu_addc_ne (a b : Word) :
    (alu (some .ADDC) a b true).1 ≠ (alu (some .ADDC) a b false).1 := by
  intro h
  have hnat := congrArg BitVec.toNat h
  simp only [alu, BitVec.toNat_ofNat, Bool.toNat_true, Bool.toNat_false] at hnat
  omega

theorem alu_subc_ne (a b : Word) :
    (alu (some .SUBC) a b true).1 ≠ (alu (some .SUBC) a b false).1 := by
  intro h
  have hnat := congrArg BitVec.toNat h
  simp only [alu, BitVec.toNat_sub, BitVec.toNat_ofNat, Bool.toNat_true, Bool.toNat_false] at hnat
  omega

/-- **One operation.** The hardware does what the simulator does, just when the carry does not
matter and what an unknown operation writes back was there before. -/
theorem Core.performAlu_eq_iff (c : Core) (op : Option AluOp) (rd : RegId) (b : Word) :
    c.performAlu op rd b = c.executeAlu op rd b ↔
      ((op = some .ADDC ∨ op = some .SUBC) → c.flags.c = false) ∧ (op = none → c.regs rd = 0) := by
  by_cases hcarry : op = some .ADDC ∨ op = some .SUBC
  · have hsome : op ≠ none := by
      rintro rfl
      rcases hcarry with h | h <;> cases h
    have hiff : c.performAlu op rd b = c.executeAlu op rd b ↔ c.flags.c = false := by
      cases hc : c.flags.c with
      | false =>
        refine iff_of_true ?_ rfl
        rcases hcarry with rfl | rfl <;> simp only [performAlu, executeAlu, hc] <;> rfl
      | true =>
        refine iff_of_false (fun h => ?_) Bool.false_ne_true.symm
        have hreg := congrFun (congrArg Core.regs h) rd
        have hcmp : ¬op = some .CMP := by rcases hcarry with rfl | rfl <;> decide
        have hwrites : writesResult op = true := by rcases hcarry with rfl | rfl <;> rfl
        simp only [performAlu, executeAlu, hc, if_neg hcmp, if_pos hwrites,
          Function.update_self] at hreg
        rcases hcarry with rfl | rfl
        · exact alu_addc_ne _ _ hreg
        · exact alu_subc_ne _ _ hreg
    rw [hiff]
    exact ⟨fun h => ⟨fun _ => h, fun hn => absurd hn hsome⟩, fun h => h.1 hcarry⟩
  · have halu := alu_carry hcarry (c.regs rd) b c.flags.c
    cases op with
    | none =>
      have hiff : c.performAlu none rd b = c.executeAlu none rd b ↔ c.regs rd = 0 := by
        constructor
        · intro h
          have hreg := congrFun (congrArg Core.regs h) rd
          exact (hreg.symm.trans (Function.update_self rd _ _))
        · intro h
          have hregs : Function.update c.regs rd 0 = c.regs :=
            Function.update_eq_self_iff.mpr h.symm
          exact Core.ext hregs rfl rfl
      rw [hiff]
      exact ⟨fun h => ⟨fun hc => absurd hc hcarry, fun _ => h⟩, fun h => h.2 rfl⟩
    | some op =>
      refine iff_of_true ?_
        ⟨fun hc => absurd hc hcarry, fun hn => absurd hn (Option.some_ne_none op)⟩
      simp only [performAlu, executeAlu, halu]
      cases op <;> rfl

/-- **One instruction.** -/
theorem Core.perform_eq_iff (d : Decoded) (mem : Addr → Word) (c : Core) :
    c.perform d mem = c.execute d mem ↔ d.Golden c := by
  have halu : ∀ (op : Option AluOp) (rd : RegId) (b : Word), d.operation = some (op, rd) →
      c.perform d mem = c.performAlu op rd b → c.execute d mem = c.executeAlu op rd b →
      (c.perform d mem = c.execute d mem ↔ d.Golden c) := by
    intro op rd b hop hperform hexecute
    rw [hperform, hexecute, performAlu_eq_iff]
    constructor
    · intro h op' rd' hop'
      obtain ⟨rfl, rfl⟩ := (Prod.mk.injEq ..).mp (Option.some_inj.mp (hop.symm.trans hop'))
      exact h
    · intro h
      exact h op rd hop
  have hother : d.operation = none → c.perform d mem = c.execute d mem →
      (c.perform d mem = c.execute d mem ↔ d.Golden c) := by
    intro hop h
    refine iff_of_true h fun op rd hop' => ?_
    rw [hop] at hop'
    cases hop'
  cases d with
  | rtype op rd rs => exact halu op rd (c.regs rs) rfl rfl rfl
  | itype op rd imm => exact halu op rd imm rfl rfl rfl
  | halt | load rd ra | stor rs ra | branch cond disp | jump cond rt | undefined =>
    exact hother rfl rfl

/-! ### Three clocks -/

namespace Fabric

variable {s : Fabric} {w : Word} {host : HostWrite}

/-- The clock of a fetch. -/
theorem Fetching.clock (h : s.Fetching) (host : HostWrite) :
    (s.clock host).toCore = s.toCore ∧ (s.clock host).ram = host.apply s.ram ∧
      (s.clock host).core.fsm = Fsm.idle .S1 := by
  obtain ⟨hcore, hram, -, hfsm⟩ := h.quiet.clock host
  refine ⟨hcore, hram, ?_⟩
  rw [hfsm, Fsm.edge, h.state]
  rfl

/-- The clock of a decode: the word that counts is read again. -/
theorem decoding_clock (h : s.core.fsm = Fsm.idle .S1) (host : HostWrite) :
    (s.clock host).toCore = s.toCore ∧ (s.clock host).ram = host.apply s.ram ∧
      (s.clock host).Decoding (s.ram s.core.pc) := by
  obtain ⟨hcore, hram, hir, hfsm⟩ := (quiet_of_idle h).clock host
  have hflags : (s.clock host).core.fr = s.core.fr := congrArg Core.flags hcore
  rw [h] at hir hfsm
  exact ⟨hcore, hram, hir, by rw [hflags, hfsm]; rfl⟩

/-- A zero word and an undefined one park the core. -/
theorem Decoding.parks (h : s.Decoding w) (hw : decode w = .halt ∨ decode w = .undefined) :
    s.Quiet ∧ s.core.fsm.state = .hlt := by
  have hparks : ∀ f : Fsm, s.core.fsm = f → (f.ren = false ∧ f.pcEn = false ∧ f.fen = false ∧
      f.ls = false ∧ f.we = false) ∧ f.state = .hlt → s.Quiet ∧ s.core.fsm.state = .hlt := by
    rintro f rfl ⟨⟨hren, hpc, hfen, hls, hwe⟩, hstate⟩
    exact ⟨⟨hren, hpc, hfen, hls, hwe⟩, hstate⟩
  refine hparks _ h.fsm ?_
  by_cases hzero : w = 0
  · simp only [Fsm.decode, if_pos hzero]
    exact ⟨⟨rfl, rfl, rfl, rfl, rfl⟩, rfl⟩
  · have hund := hw.resolve_left fun hhalt => hzero (decode_eq_halt_iff.mp hhalt)
    simp only [decode, if_neg hzero] at hund
    split_ifs at hund with hls hstor hload hjump
    simp only [Fsm.decode, if_neg hzero, if_pos hls, if_neg hstor, if_neg hload, if_neg hjump]
    exact ⟨⟨rfl, rfl, rfl, rfl, rfl⟩, rfl⟩

/-- Any other word is executed. -/
theorem Decoding.executes (h : s.Decoding w) (hhalt : decode w ≠ .halt)
    (hund : decode w ≠ .undefined) : s.core.fsm.state ≠ .S0 ∧ s.core.fsm.state ≠ .S1 ∧
      s.core.fsm.state ≠ .hlt := by
  have hw : w ≠ 0 := fun hw => hhalt (decode_eq_halt_iff.mpr hw)
  rw [h.fsm]
  simp only [Fsm.decode, if_neg hw]
  simp only [decode, if_neg hw] at hund
  split_ifs at hund ⊢ <;>
    first
      | exact absurd rfl hund
      | exact ⟨FsmState.noConfusion, FsmState.noConfusion, FsmState.noConfusion⟩

/-- The clock of an instruction ends in a fetch. -/
theorem Performs.fetching {d : Decoded} (h : s.Performs host d) : (s.clock host).Fetching := by
  have hquiet : (s.clock host).Quiet := by
    refine ⟨?_, ?_, ?_, ?_, ?_⟩ <;> rw [h.fsm] <;> rfl
  exact ⟨hquiet, congrArg Fsm.state h.fsm⟩

/-- The word at the PC. -/
def word (s : Fabric) : Word := s.ram s.core.pc

/-- Two clocks fetch the word at the PC. -/
theorem Fetching.decoding (h : s.Fetching) : (s.alone 2).toCore = s.toCore ∧
    (s.alone 2).ram = s.ram ∧ (s.alone 2).Decoding s.word := by
  obtain ⟨hcore, hram, hfsm⟩ := h.clock none
  obtain ⟨hcore', hram', hdec⟩ := decoding_clock hfsm none
  have hpc : (s.clock none).core.pc = s.core.pc := congrArg Core.pc hcore
  rw [hram, hpc] at hdec
  exact ⟨hcore'.trans hcore, hram'.trans hram, hdec⟩

/-- **The hardware on one word.** -/
theorem effect_eq (h : s.Fetching) : s.effect =
    if decode s.word = .halt ∨ decode s.word = .undefined then ⟨s.toCore, s.ram, false⟩
    else ⟨s.toCore.perform (decode s.word) s.ram,
      Access.applyOpt s.ram (s.toCore.access (decode s.word)), true⟩ := by
  obtain ⟨hcore, hram, hdec⟩ := h.decoding
  have hthree : s.alone 3 = (s.alone 2).clock none := rfl
  rw [effect, hthree]
  split_ifs with hw
  · obtain ⟨hquiet, hstate⟩ := hdec.parks hw
    obtain ⟨hcore', hram', -, hfsm⟩ := hquiet.clock none
    rw [hcore', hram', hfsm, hcore, hram, Fsm.edge, hstate]
    refine Effect.ext rfl rfl (decide_eq_false ?_)
    dsimp only
    rw [if_neg Bool.false_ne_true]
    split_ifs <;> exact FsmState.noConfusion
  · obtain ⟨hhalt, hund⟩ := not_or.mp hw
    obtain ⟨hcore', hram', hfsm⟩ := performs hdec hhalt hund none
    rw [hcore', hram', hfsm, hcore, hram]
    rfl

/-- What has parked the core parks it for good. -/
theorem parked (h : s.Fetching) (hw : decode s.word = .halt ∨ decode s.word = .undefined) (n : ℕ) :
    (s.alone n).toCore = s.toCore ∧ (s.alone n).ram = s.ram := by
  let I : ℕ → Fabric → Prop := fun _ t => t.toCore = s.toCore ∧ t.ram = s.ram ∧
    (t.Fetching ∨ t.core.fsm = Fsm.idle .S1 ∨ t.Quiet ∧ t.core.fsm.state = .hlt)
  have hstep : ∀ n t, I n t → I (n + 1) (t.clock none) := by
    rintro n t ⟨hcore, hram, hfetch | hdecode | ⟨hquiet, hstate⟩⟩
    · obtain ⟨hcore', hram', hfsm⟩ := hfetch.clock none
      exact ⟨hcore'.trans hcore, hram'.trans hram, .inr (.inl hfsm)⟩
    · obtain ⟨hcore', hram', hdec⟩ := decoding_clock hdecode none
      have hpc : t.core.pc = s.core.pc := congrArg Core.pc hcore
      rw [hram, hpc] at hdec
      exact ⟨hcore'.trans hcore, hram'.trans hram, .inr (.inr (hdec.parks hw))⟩
    · obtain ⟨hcore', hram', -, hfsm⟩ := hquiet.clock none
      refine ⟨hcore'.trans hcore, hram'.trans hram, ?_⟩
      rw [Fsm.edge, hstate] at hfsm
      dsimp only at hfsm
      rw [if_neg Bool.false_ne_true] at hfsm
      split_ifs at hfsm
      · exact .inr (.inr ⟨quiet_of_idle hfsm, congrArg Fsm.state hfsm⟩)
      · exact .inr (.inl hfsm)
  obtain ⟨hcore, hram, -⟩ := Clocked.invariant (I := I) ⟨rfl, rfl, .inl h⟩ hstep n
  exact ⟨hcore, hram⟩

end Fabric

/-- **The simulator on one word.** -/
theorem Cpu.effect_eq (c : Cpu) : c.effect =
    if c.current = .halt ∨ c.current = .undefined then ⟨c.toCore, c.mem, false⟩
    else ⟨c.toCore.execute c.current c.mem,
      Access.applyOpt c.mem (c.toCore.access c.current), true⟩ := by
  by_cases hund : c.current = .undefined
  · have hstep : c.step = .error ⟨c.mem c.pc, c.pc⟩ := by
      rw [Cpu.current] at hund
      simp only [Cpu.step]
      split
      · next hd => exact Decoded.noConfusion (hd.symm.trans hund)
      · rfl
      · next hne => exact absurd hund hne
    rw [Cpu.effect, hstep, if_pos (.inr hund)]
  · obtain ⟨c', hsteps⟩ := Cpu.exists_steps hund
    obtain ⟨hcore, hmem⟩ := hsteps.eq
    have hstep : c.step = .ok (c.current, c') := hsteps
    rw [Cpu.effect, hstep]
    dsimp only
    rw [hcore, hmem]
    by_cases hhalt : c.current = .halt
    · rw [if_pos (.inl hhalt), hhalt]
      rfl
    · rw [if_neg (not_or.mpr ⟨hhalt, hund⟩), decide_eq_true hhalt]

/-- **The simulator agrees with the hardware** on the word at the PC just when the word is golden in
that state. -/
theorem effects_agree_iff (s : Fabric) (h : s.Fetching) (c : Cpu) (hcore : c.toCore = s.toCore)
    (hmem : c.mem = s.ram) : s.effect = c.effect ↔ (decode s.word).Golden s.toCore := by
  have hcurrent : c.current = decode s.word := by
    have hpc : c.pc = s.core.pc := congrArg Core.pc hcore
    rw [Cpu.current, Fabric.word, hmem, hpc]
  rw [Fabric.effect_eq h, Cpu.effect_eq, hcurrent, hcore, hmem]
  split_ifs with hw
  · refine iff_of_true rfl fun op rd hop => ?_
    rcases hw with hw | hw <;>
    · rw [hw] at hop
      cases hop
  · rw [← Core.perform_eq_iff _ s.ram]
    constructor
    · intro heq
      exact congrArg Effect.core heq
    · intro heq
      rw [heq]

/-- A core at word 8, with the flags and the word given. -/
def Fabric.atReset (fr : Flags) (w : Word) : Fabric where
  core := ⟨8, 0, fr, fun _ => 0, Fsm.idle .S0⟩
  ram := fun _ => w

theorem Fabric.fetching_atReset (fr : Flags) (w : Word) : (atReset fr w).Fetching :=
  ⟨quiet_of_idle rfl, rfl⟩

/-- They agree on `MOV R1, #5`. -/
theorem effects_agree_mov :
    (Fabric.atReset .clear 0x0000F105).effect =
      Cpu.effect ⟨(Fabric.atReset .clear 0x0000F105).toCore, fun _ => 0x0000F105, 0, 0, 0⟩ := by
  refine (effects_agree_iff _ (Fabric.fetching_atReset _ _) _ rfl rfl).mpr fun op rd hop => ?_
  have hd : (decode (Fabric.atReset .clear 0x0000F105).word).operation = some (some .MOV, 1) := rfl
  rw [hd] at hop
  obtain ⟨rfl, -⟩ := (Prod.mk.injEq ..).mp (Option.some_inj.mp hop)
  constructor
  · rintro (h | h) <;> cases h
  · intro h
    cases h

/-- They disagree on `ADDC R0, R1` with the carry set. -/
theorem not_effects_agree :
    ¬∀ (s : Fabric) (c : Cpu), s.Fetching → c.toCore = s.toCore → c.mem = s.ram →
      s.effect = c.effect := by
  intro h
  have hagree := h (Fabric.atReset ⟨false, true, false, false, false⟩ 0x00000071)
    ⟨⟨fun _ => 0, ⟨false, true, false, false, false⟩, 8⟩, fun _ => 0x00000071, 0, 0, 0⟩
    (Fabric.fetching_atReset _ _) rfl rfl
  have hreg : (1 : Word) = 0 := congrFun (congrArg (fun e => e.core.regs) hagree) 0
  exact absurd hreg (by decide)

end Fmma
