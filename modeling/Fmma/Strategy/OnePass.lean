import Fmma.Strategy.Pass
import Fmma.Strategy.Runs

/-!
# The CPU makes one pass

How long a pass takes is a matter of the listing alone: between `LOOP` and the next `LOOP` or the
restart every branch goes forward, and every jump goes to `LOOP`, so that the longest way is found
in one sweep over the listing (`paces`). What the pass does is the strategy's business.
-/

namespace Fmma

namespace Cpu

/-- `n` steps lead from one state to another. -/
inductive Takes : ℕ → Cpu → Cpu → Prop
  | zero (c : Cpu) : Takes 0 c c
  | succ {n : ℕ} {c d e : Cpu} (hs : c.Steps d) (h : Takes n d e) : Takes (n + 1) c e

theorem Takes.trans {n k : ℕ} {c d e : Cpu} (h : Takes n c d) (h' : Takes k d e) :
    Takes (n + k) c e := by
  induction h with
  | zero c => rwa [Nat.zero_add]
  | succ hs _ ih =>
    rw [Nat.add_right_comm]
    exact .succ hs (ih h')

end Cpu

/-- R0 to R3 and R15, which a pass does not change. -/
structure Core.Constants (c : Core) : Prop where
  zero : c.regs 0 = 0
  one : c.regs 1 = 1
  tickSeq : c.regs 2 = asWord tickSeq
  heartbeat : c.regs 3 = asWord heartbeat
  loop : c.regs 15 = asWord Strategy.trading.loopAt

/-- The registers that live across passes. -/
def Core.kept (c : Core) : Kept := ⟨c.regs 9, c.regs 11, c.regs 12, c.regs 13, c.regs 14⟩

namespace Strategy

/-! ### The longest way -/

/-- The most instructions from an instruction to the end of a stretch without ways back, where
`rest` has the numbers for those behind it. -/
def pace (rest : List ℕ) : Decoded → ℕ
  | .jump _ _ => 1
  | .branch cond disp =>
    let on := if cond = 14 then 0 else rest.getD 0 0
    let off := if 0 < disp then rest.getD (disp.toNat - 1) 0 else 0
    1 + max on off
  | _ => 1 + rest.getD 0 0

/-- The longest way from each instruction of a listing. -/
def paces : List Decoded → List ℕ
  | [] => []
  | d :: l => pace (paces l) d :: paces l

/-- The longest way from a word. -/
def paceAt (s : Strategy) (p : Addr) : ℕ := (paces s.listing).getD (p.toNat - 8) 0

/-- The words that an instruction may go on to; jumps are through R15. -/
def onward (s : Strategy) (p : Addr) : List Addr :=
  match s.code p with
  | .jump _ _ => [s.loopAt]
  | .branch cond disp =>
    if cond = 14 then [p + BitVec.ofInt 10 disp] else [p + 1, p + BitVec.ofInt 10 disp]
  | _ => [p + 1]

/-- The words of a pass behind `LOOP`, up to where a request of a restart is cleared. -/
def InPass (s : Strategy) (p : Addr) : Prop :=
  s.loopAt < p ∧ p < s.pcOf .clearRestart

instance (s : Strategy) (p : Addr) : Decidable (s.InPass p) := inferInstanceAs (Decidable (_ ∧ _))

theorem InPass.ne_loopAt {s : Strategy} {p : Addr} (h : s.InPass p) : p ≠ s.loopAt := by
  rintro rfl
  exact BitVec.lt_irrefl _ h.1

theorem InPass.ne_clearRestart {s : Strategy} {p : Addr} (h : s.InPass p) :
    p ≠ s.pcOf .clearRestart := by
  rintro rfl
  exact BitVec.lt_irrefl _ h.2

/-- An instruction keeps the constants, jumps through R15 only, and comes closer to the end. -/
structure Paced (s : Strategy) (p : Addr) : Prop where
  keeps : ∀ i ∈ [0, 1, 2, 3, 15], (s.code p).target ≠ some i
  jumps : ∀ cond rt, s.code p = .jump cond rt → cond = 14 ∧ rt = 15
  closer : ∀ q ∈ s.onward p, q = s.loopAt ∨ q = s.pcOf .clearRestart ∨
    s.InPass q ∧ s.paceAt q < s.paceAt p
  positive : 0 < s.paceAt p

/-- A jump is taken, and through R15. -/
def jumpsToLoop : Decoded → Bool
  | .jump cond rt => cond == 14 && rt == 15
  | _ => true

/-- The same as a test. -/
def pacedTest (s : Strategy) (p : Addr) : Bool :=
  [0, 1, 2, 3, 15].all (fun i => (s.code p).target != some i) && jumpsToLoop (s.code p) &&
    (s.onward p).all (fun q => q == s.loopAt || q == s.pcOf .clearRestart ||
      decide (s.InPass q) && decide (s.paceAt q < s.paceAt p)) && decide (0 < s.paceAt p)

theorem paced_of_test {s : Strategy} {p : Addr} (h : s.pacedTest p = true) : s.Paced p := by
  simp only [pacedTest, Bool.and_eq_true, List.all_eq_true, bne_iff_ne, Bool.or_eq_true, beq_iff_eq,
    decide_eq_true_eq] at h
  obtain ⟨⟨⟨hkeeps, hjumps⟩, hcloser⟩, hpositive⟩ := h
  refine ⟨hkeeps, ?_, fun q hq => or_assoc.mp (hcloser q hq), hpositive⟩
  intro cond rt hcode
  rw [hcode, jumpsToLoop, Bool.and_eq_true, beq_iff_eq, beq_iff_eq] at hjumps
  exact hjumps

/-- `trading.asm` comes closer to the end of its pass with every instruction. -/
theorem paced_trading {p : Addr} (h : p = trading.loopAt ∨ trading.InPass p) :
    trading.Paced p := by
  have hlisting : ∀ n < 155, 46 ≤ n → trading.pacedTest (BitVec.ofNat 10 n) = true := by
    decide +kernel
  have hrange : p.toNat < 155 ∧ 46 ≤ p.toNat := by
    rcases h with rfl | h
    · decide
    · exact ⟨BitVec.lt_def.mp h.2, (BitVec.lt_def.mp h.1).le⟩
  have htest := hlisting p.toNat hrange.1 hrange.2
  rw [BitVec.ofNat_toNat, BitVec.setWidth_eq] at htest
  exact paced_of_test htest

/-! ### Steps -/

variable {s : Strategy} {p : Point} {b : Pass} {t : Thread} {c c' : Cpu}

/-- The constants stay. -/
theorem Paced.constants (h : trading.Paced c.pc) (hc : c.Constants) (hcur : c.current =
    trading.code c.pc) (hs : c.Steps c') : c'.Constants := by
  have hkeep (i : RegId) (hi : i ∈ ([0, 1, 2, 3, 15] : List RegId)) : c'.regs i = c.regs i := by
    rw [hs.eq.1, hcur]
    exact Core.execute_regs_of_ne (h.keeps i hi)
  refine ⟨(hkeep 0 ?_).trans hc.zero, (hkeep 1 ?_).trans hc.one, (hkeep 2 ?_).trans hc.tickSeq,
    (hkeep 3 ?_).trans hc.heartbeat, (hkeep 15 ?_).trans hc.loop⟩ <;> decide

/-- Where the next instruction is. -/
theorem Paced.onward (h : trading.Paced c.pc) (hc : c.Constants)
    (hcur : c.current = trading.code c.pc) (hs : c.Steps c')
    (hrun : trading.code c.pc ≠ .halt ∧ trading.code c.pc ≠ .undefined) :
    c'.pc ∈ trading.onward c.pc := by
  have hpc : c'.pc = (c.execute (trading.code c.pc) c.mem).pc := by rw [hs.eq.1, hcur]
  rw [hpc, Strategy.onward]
  cases hd : trading.code c.pc with
  | halt => exact absurd hd hrun.1
  | undefined => exact absurd hd hrun.2
  | jump cond rt =>
    obtain ⟨rfl, rfl⟩ := h.jumps cond rt hd
    have hto : c.addr 15 = trading.loopAt := by rw [Core.addr, hc.loop, setWidth_asWord]
    rw [List.mem_singleton, ← hto]
    rfl
  | branch cond disp =>
    simp only [Core.execute, Core.branchTo]
    split_ifs with halways htaken htaken
    · exact List.mem_singleton_self _
    · exact absurd (halways ▸ rfl) htaken
    · exact List.mem_cons_of_mem _ (List.mem_singleton_self _)
    · exact List.mem_cons_self
  | _ => exact List.mem_singleton_self _

/-- The CPU is where its pass ends, with registers and RAM as in `b`. -/
structure Landed (p : Point) (b : Pass) (c : Cpu) : Prop where
  corr : ∃ r, trading.Corr ⟨p, r⟩ c.toCore ∧ r.kept = b.kept
  mem : c.mem = b.mem
  loaded : trading.Loaded c.mem
  constants : c.Constants

/-- At a point the registers are the strategy's. -/
theorem Corr.kept (h : trading.Corr t c.toCore) : c.kept = t.regs.kept := by
  obtain ⟨-, -, hanchor, htick, hbeat, hposition, hfill⟩ := h.live
  rw [Core.kept, hanchor, htick, hbeat, hposition, hfill]
  rfl

/-- At an end of the pass the strategy has landed. -/
theorem landed_of_pc {q : Point} (hq : q = .loop ∨ q = .clearRestart) (hpc : c.pc = trading.pcOf q)
    (hsim : trading.Sim t c.toCore) (hl : trading.Loaded c.mem) (hc : c.Constants)
    (hlands : t.Lands trading p b c.mem) : Landed p b c := by
  have hcorr : trading.Corr t c.toCore := hsim.corr (by
    rw [hpc]
    obtain rfl | rfl := hq <;> rfl)
  have hplace := hcorr.place_eq (p := q) (by obtain rfl | rfl := hq <;> trivial) hpc
  have hends : t.point.ends = true := by
    obtain ⟨point, r⟩ := t
    obtain rfl | rfl := hq <;> cases point <;> cases hplace <;> rfl
  cases hlands with
  | here hkept hmem => exact ⟨⟨_, hcorr, hkept⟩, hmem, hl, hc⟩
  | step hends' _ => exact absurd (hends.symm.trans hends') Bool.noConfusion

/-- **Every instruction of a pass comes closer to its end**, and does the strategy's bidding. -/
theorem exists_landed (hp : p.ends = true) {n : ℕ} (hn : trading.paceAt c.pc ≤ n)
    (hpc : trading.InPass c.pc) (hsim : trading.Sim t c.toCore) (hl : trading.Loaded c.mem)
    (hc : c.Constants) (hlands : t.Lands trading p b c.mem) :
    ∃ k d, k ≤ n ∧ c.Takes k d ∧ Landed p b d := by
  induction n generalizing c t with
  | zero => exact absurd (paced_trading (.inr hpc)).positive (not_lt.mpr hn)
  | succ n ih =>
    have hpaced := paced_trading (.inr hpc)
    have hcur := hsim.current hl
    have hrun := hsim.running
    obtain ⟨c', hs⟩ := Cpu.exists_steps (hcur ▸ hrun.2)
    have hc' := hpaced.constants hc hcur hs
    obtain ⟨t', hsim', hl', hlands'⟩ : ∃ t', trading.Sim t' c'.toCore ∧ trading.Loaded c'.mem ∧
        t'.Lands trading p b c'.mem := by
      rcases hsim.step hl hs with ⟨-, hmem, hsim'⟩ | ⟨hcorr, -, hmem, hsim'⟩
      · exact ⟨t, hsim', hmem ▸ hl, hmem ▸ hlands⟩
      · refine ⟨_, hsim', hmem ▸ hl.applyOpt_access, ?_⟩
        cases hlands with
        | here =>
          -- the pass has not come to an end here
          have hplace := hcorr.pc
          cases p with
          | loop => exact absurd hplace hpc.ne_loopAt
          | clearRestart => exact absurd hplace hpc.ne_clearRestart
          | _ => cases hp
        | step _ hnext => exact hmem ▸ hnext
    rcases hpaced.closer _ (hpaced.onward hc hcur hs hrun) with hend | hend | ⟨hin, hlt⟩
    · exact ⟨1, c', Nat.le_add_left 1 n, .succ hs (.zero c'),
        landed_of_pc (.inl rfl) hend hsim' hl' hc' hlands'⟩
    · exact ⟨1, c', Nat.le_add_left 1 n, .succ hs (.zero c'),
        landed_of_pc (.inr rfl) hend hsim' hl' hc' hlands'⟩
    · obtain ⟨k, d, hk, hd, hlanded⟩ := ih (by omega) hin hsim' hl' hc' hlands'
      exact ⟨k + 1, d, Nat.succ_le_succ hk, .succ hs hd, hlanded⟩

/-! ### The pass -/

set_option maxRecDepth 4000

/-- From the request of a restart to `INIT`. -/
theorem restarts (h : Landed .clearRestart b c) : ∃ d, c.Takes 3 d ∧ d.pc = programBase ∧
    d.kept = b.kept ∧ d.mem = Function.update b.mem cfgRestart 0 ∧ d.Constants := by
  obtain ⟨⟨r, hcorr, hkept⟩, hmem, hl, hc⟩ := h
  have hpc : c.pc = 155 := hcorr.pc
  have haddr : c.addr 4 = cfgRestart := by
    rw [Core.addr, hcorr.pins 4 (asWord cfgRestart) rfl, setWidth_asWord]
  have hzero : c.regs 8 = 0 := hcorr.pins 8 0 rfl
  -- `STOR R8, R4`
  have hcur : c.current = .stor 8 4 := (hl.decode_eq (by rw [hpc]; decide)).trans (by rw [hpc]; rfl)
  obtain ⟨c₁, hs₁⟩ := Cpu.exists_steps (c := c) (by rw [hcur]; exact Decoded.noConfusion)
  obtain ⟨hcore₁, hmem₁⟩ := hs₁.eq
  rw [hcur] at hcore₁ hmem₁
  have hmem₁ : c₁.mem = Function.update c.mem cfgRestart 0 := by
    rw [hmem₁, Core.access, haddr, hzero, Access.applyOpt_some, Access.apply_store]
  have hpc₁ : c₁.pc = 156 := by
    rw [hcore₁, Core.execute, hpc]
    rfl
  have hl₁ : trading.Loaded c₁.mem := by
    rw [hmem₁]
    exact hl.update (by decide) 0
  -- `MOV R4, #8`
  have hcur₁ : c₁.current = .itype (some .MOV) 4 8 :=
    (hl₁.decode_eq (by rw [hpc₁]; decide)).trans (by rw [hpc₁]; rfl)
  obtain ⟨c₂, hs₂⟩ := Cpu.exists_steps (c := c₁) (by rw [hcur₁]; exact Decoded.noConfusion)
  obtain ⟨hcore₂, hmem₂⟩ := hs₂.eq
  rw [hcur₁] at hcore₂ hmem₂
  have hmem₂ : c₂.mem = c₁.mem := hmem₂
  have hregs₂ : c₂.regs = Function.update c.regs 4 8 := by
    rw [hcore₂, hcore₁]
    rfl
  have hpc₂ : c₂.pc = 157 := by
    rw [hcore₂, Core.execute, Core.executeAlu, hpc₁]
    rfl
  -- `JUC R4`
  have hcur₂ : c₂.current = .jump 14 4 :=
    ((hmem₂ ▸ hl₁).decode_eq (by rw [hpc₂]; decide)).trans (by rw [hpc₂]; rfl)
  obtain ⟨d, hs₃⟩ := Cpu.exists_steps (c := c₂) (by rw [hcur₂]; exact Decoded.noConfusion)
  obtain ⟨hcore₃, hmem₃⟩ := hs₃.eq
  rw [hcur₂] at hcore₃ hmem₃
  have hmem₃ : d.mem = c₂.mem := hmem₃
  have hregs (i : RegId) (hi : i ≠ 4) : d.regs i = c.regs i := by
    rw [hcore₃]
    change c₂.regs i = c.regs i
    rw [hregs₂, Function.update_of_ne hi]
  refine ⟨d, .succ hs₁ (.succ hs₂ (.succ hs₃ (.zero d))), ?_, ?_, ?_, ?_⟩
  · rw [hcore₃]
    change (c₂.regs 4).setWidth 10 = programBase
    rw [hregs₂, Function.update_self]
    rfl
  · rw [← hkept, Core.kept, hregs 9 (by decide), hregs 11 (by decide), hregs 12 (by decide),
      hregs 13 (by decide), hregs 14 (by decide)]
    exact hcorr.kept
  · rw [hmem₃, hmem₂, hmem₁, hmem]
  · exact ⟨(hregs 0 (by decide)).trans hc.zero, (hregs 1 (by decide)).trans hc.one,
      (hregs 2 (by decide)).trans hc.tickSeq, (hregs 3 (by decide)).trans hc.heartbeat,
      (hregs 15 (by decide)).trans hc.loop⟩

theorem inImage_loopAt : trading.InImage 46 := by decide

/-- The longest pass. -/
theorem paceAt_beat : trading.paceAt 47 = 80 := by decide +kernel

end Strategy

/-- The CPU is at `LOOP`, with the image of `trading.asm` in the RAM and the constants in their
registers; all other registers, the flags and the rest of the RAM hold anything. -/
structure Cpu.AtLoop (c : Cpu) : Prop where
  loaded : Strategy.trading.Loaded c.mem
  pc : c.pc = 46
  constants : c.Constants

/-- What a CPU at `LOOP` has made of `c` after a pass. -/
structure Cpu.Passed (c d : Cpu) : Prop where
  kept : d.kept = (Pass.run ⟨c.kept, c.mem⟩).kept
  mem : d.mem = (Pass.run ⟨c.kept, c.mem⟩).mem
  pc : d.pc = if Pass.Restarts ⟨c.kept, c.mem⟩ then programBase else 46
  constants : d.Constants

open Strategy in
/-- **One pass of `trading.asm` implements the reference**: within 90 instructions the CPU is back
at `LOOP`, or at `INIT` after it has cleared a request of a restart. -/
theorem one_pass {c : Cpu} (h : c.AtLoop) : ∃ n d, 1 ≤ n ∧ n ≤ 90 ∧ c.Takes n d ∧ c.Passed d := by
  obtain ⟨hl, hpc, hc⟩ := h
  obtain ⟨r, hr⟩ : ∃ r : Regs, r = ⟨c.regs 5, c.regs 6, c.regs 9, c.regs 10, c.regs 11, c.regs 12,
    c.regs 13, c.regs 14⟩ := ⟨_, rfl⟩
  have hkept : r.kept = c.kept := by
    rw [hr]
    rfl
  have hcorr : trading.Corr ⟨.loop, r⟩ c.toCore := by
    refine ⟨trivial, hpc, Pins.holds_of_forall ?_⟩
    rw [hr]
    exact ⟨hc.zero, hc.one, hc.tickSeq, hc.heartbeat, rfl, rfl, rfl, rfl, rfl, rfl, rfl, hc.loop⟩
  have hcur : c.current = trading.code c.pc := hl.decode_eq (by rw [hpc]; exact inImage_loopAt)
  have hf := hcorr.follows c.mem
  have hpaced := paced_trading (p := c.pc) (.inl hpc)
  obtain ⟨c₁, hs⟩ := Cpu.exists_steps (hcur ▸ hf.running.2)
  obtain ⟨hcore, hmem⟩ := hs.eq
  rw [hcur] at hcore hmem
  have hmem : c₁.mem = c.mem := by rw [hmem, hf.access, Thread.access, Access.applyOpt_none]
  have hsim : trading.Sim ⟨.beat, { r with beat := r.beat + 1 }⟩ c₁.toCore := hcore ▸ hf.sim
  have hc₁ := hpaced.constants hc hcur hs
  have hpc₁ : c₁.pc = 47 := by
    have honward := hpaced.onward hc hcur hs hf.running
    rw [hpc] at honward
    exact List.mem_singleton.mp honward
  have hin : trading.InPass c₁.pc := by
    rw [hpc₁]
    decide
  have hpace : trading.paceAt c₁.pc ≤ 80 := by rw [hpc₁, paceAt_beat]
  by_cases hrestart : Pass.Restarts ⟨c.kept, c.mem⟩
  · have hlands : Thread.Lands trading .clearRestart (Pass.beats ⟨c.kept, c.mem⟩)
        ⟨.beat, { r with beat := r.beat + 1 }⟩ c₁.mem := by
      rw [hmem, ← hkept]
      exact Thread.lands_restart (hkept ▸ hrestart)
    obtain ⟨k, e, hk, he, hlanded⟩ :=
      exists_landed rfl hpace hin hsim (hmem ▸ hl) hc₁ hlands
    obtain ⟨d, hd, hpcd, hkeptd, hmemd, hcd⟩ := restarts hlanded
    have hrun : Pass.run ⟨c.kept, c.mem⟩ = (Pass.beats ⟨c.kept, c.mem⟩).store cfgRestart 0 :=
      if_pos hrestart
    refine ⟨k + 3 + 1, d, by omega, by omega, .succ hs (he.trans hd), ?_, ?_, ?_, hcd⟩
    · rw [hrun, hkeptd]
      rfl
    · rw [hrun, hmemd]
      rfl
    · rw [hpcd, if_pos hrestart]
  · have hlands : Thread.Lands trading .loop (Pass.run ⟨c.kept, c.mem⟩)
        ⟨.beat, { r with beat := r.beat + 1 }⟩ c₁.mem := by
      rw [hmem, ← hkept]
      exact Thread.lands_run (hkept ▸ hrestart)
    obtain ⟨k, d, hk, hd, ⟨r', hcorrd, hkeptd⟩, hmemd, -, hcd⟩ :=
      exists_landed rfl hpace hin hsim (hmem ▸ hl) hc₁ hlands
    refine ⟨k + 1, d, by omega, by omega, .succ hs hd, ?_, hmemd, ?_, hcd⟩
    · rw [hcorrd.kept, hkeptd]
    · rw [if_neg hrestart]
      exact hcorrd.pc

/-- A quote of 50 and 50 that has not been consumed, the switch on and a limit of one lot. -/
def quotedRam (a : Addr) : Word :=
  if a = tickSeq then 2 else if a = bid ∨ a = ask then 50
  else if a = cfgEnable ∨ a = cfgMaxPos then 1 else 0

/-- A CPU at `LOOP` with an anchor of 200. -/
def Cpu.looping : Cpu where
  regs := fun i =>
    if i = 1 then 1 else if i = 2 then asWord tickSeq else if i = 3 then asWord heartbeat
    else if i = 9 then 200 else if i = 15 then asWord Strategy.trading.loopAt else 0
  flags := .clear
  pc := 46
  mem := Strategy.trading.install quotedRam
  cycles := 0
  instructions := 0
  haltedPolls := 0

/-- The reference at work: the quote is below the band, and a decision is published. -/
theorem one_pass_buy :
    (∃ n d, 1 ≤ n ∧ n ≤ 90 ∧ Cpu.looping.Takes n d ∧ Cpu.looping.Passed d) ∧
      (Pass.run ⟨Cpu.looping.kept, Cpu.looping.mem⟩).kept.anchor = 100 ∧
      (Pass.run ⟨Cpu.looping.kept, Cpu.looping.mem⟩).mem signal = signalBuy ∧
      (Pass.run ⟨Cpu.looping.kept, Cpu.looping.mem⟩).mem signalSeq = 1 :=
  ⟨one_pass ⟨Strategy.trading.loaded_install quotedRam, rfl, rfl, rfl, rfl, rfl, rfl⟩,
    by decide +kernel, by decide +kernel, by decide +kernel⟩

end Fmma
