import Fmma.Lib.Interleave
import Fmma.Strategy.Follow

/-!
# The programs refine the strategies

The CPU with an image in its RAM and the strategy of that image, each as a machine on the
shared memory, and the simulation between them. The claims about the programs are about runs of
`cpuMachine`; `Machine.Reachable.transfer` reduces them to the steps of `Strategy.machine`,
which has one step for each access.
-/

namespace Fmma

/-! ### The two machines -/

/-- The CPU as a machine on the shared RAM; an access is made from the word at the PC. The reset
key only sets the PC. -/
def cpuMachine : Machine Addr Addr Word Cpu where
  mem c := c.mem
  setMem c m := { c with mem := m }
  step := Cpu.Steps
  event c := (c.toCore.access c.current).map (c.pc, ·)
  reset c c' := c' = { c with pc := programBase }

namespace Strategy

/-- A strategy as a machine on the shared RAM. A reset starts `INIT` over, with any values in
the registers that `INIT` does not set. -/
def machine (s : Strategy) : Machine Addr Addr Word (Thread × (Addr → Word)) where
  mem a := a.2
  setMem a m := (a.1, m)
  step a a' := a' = (a.1.step s a.2, Access.applyOpt a.2 (a.1.access s))
  event a := (a.1.access s).map (s.pcOf a.1.point, ·)
  reset a a' := ∃ r, a' = (Thread.initial s r, a.2)

/-- The CPU runs the image and is on its way to the strategy's point, and the RAM is the
strategy's. -/
structure Rel (s : Strategy) (c : Cpu) (a : Thread × (Addr → Word)) : Prop where
  sim : s.Sim a.1 c.toCore
  loaded : s.Loaded c.mem
  mem : c.mem = a.2

variable {s : Strategy} {t : Thread} {c c' : Cpu}

/-! ### Steps -/

/-- The strategies store into the output block, apart from acknowledging a restart request. -/
theorem store_addr {a : Addr} {v : Word} (h : t.access s = some (.store a v)) :
    a = cfgRestart ∨ outputBase ≤ a := by
  obtain ⟨point, regs⟩ := t
  cases point
  case clear i =>
    obtain ⟨rfl, -⟩ : s.clearOrder i = a ∧ _ := by simpa [Thread.access] using h
    fin_cases i <;> cases s <;> decide
  all_goals simp [Thread.access] at h
  all_goals
    obtain ⟨rfl, -⟩ := h
    decide

/-- **Frame.** No access of a strategy changes a word of the input block but `CFG_RESTART`. -/
theorem apply_input {m : Addr → Word} {x : Access Addr Word} (h : t.access s = some x) {b : Addr}
    (hb : b < outputBase) (hne : b ≠ cfgRestart) : x.apply m b = m b := by
  refine Access.apply_of_ne ?_
  rintro a v rfl rfl
  rcases store_addr h with rfl | hle
  · exact hne rfl
  · exact absurd hb (BitVec.not_lt.mpr hle)

/-- `INIT` writes the output words one after the other: what it has written to one stays. -/
theorem clear_update (s : Strategy) {m : Addr → Word} {i : Fin 7} {a : Addr} {v w : Word}
    (hdone : ∀ j < i, s.clearOrder j = a → m a = w) (hv : s.clearOrder i = a → v = w) :
    ∀ j ≤ i, s.clearOrder j = a → Function.update m (s.clearOrder i) v a = w := by
  intro j hj hc
  by_cases hi : s.clearOrder i = a
  · rw [hi, Function.update_self]
    exact hv hi
  · rw [Function.update_of_ne (Ne.symm hi)]
    exact hdone j (lt_of_le_of_ne hj (by rintro rfl; exact hi hc)) hc

/-- No access of a strategy asks for a restart. -/
theorem apply_cfgRestart {m : Addr → Word} {x : Access Addr Word} (h : t.access s = some x)
    (h0 : m cfgRestart = 0) : x.apply m cfgRestart = 0 := by
  obtain ⟨point, regs⟩ := t
  cases point
  case clear i =>
    cases h
    refine (Access.apply_of_ne ?_).trans h0
    intro a v heq
    cases heq
    fin_cases i <;> cases s <;> decide
  case clearRestart =>
    cases h
    exact Function.update_self cfgRestart 0 m
  all_goals cases h
  all_goals exact h0

/-- Only the position is stored to `POSITION`. -/
theorem store_position {v : Word} (h : t.access s = some (.store position v)) :
    v = t.regs.position := by
  obtain ⟨point, regs⟩ := t
  cases point
  case clear i =>
    simp only [Thread.access, Option.some.injEq, Access.store.injEq] at h
    rw [← h.2, if_pos h.1]
  case storePosition =>
    cases h
    rfl
  all_goals cases h

/-- The strategies store into the shared blocks only. -/
theorem inputBase_le_of_access {a : Addr} {v : Word} (h : t.access s = some (.store a v)) :
    inputBase ≤ a := by
  rcases store_addr h with rfl | hle
  · decide
  · exact BitVec.le_trans (by decide) hle

/-- An access of a strategy leaves its image in place. -/
theorem Loaded.applyOpt_access {mem : Addr → Word} (h : s.Loaded mem) :
    s.Loaded (Access.applyOpt mem (t.access s)) := by
  cases hx : t.access s with
  | none => exact h
  | some x =>
    cases x with
    | load a => exact h
    | store a v => exact h.update (inputBase_le_of_access hx) v

/-- A word whose instruction is not a halt is one of the image. -/
theorem inImage_of_code_ne_halt {p : Addr} (h : s.code p ≠ .halt) : s.InImage p := by
  have hlen : s.listing.length = s.image.length := by
    rw [← map_decode_image, List.length_map]
  by_contra hout
  refine h ?_
  rw [code, List.getD_eq_getElem?_getD]
  by_cases hlo : p.toNat < 8
  · rw [List.getElem?_append_left (by simpa using hlo), List.getElem?_replicate_of_lt hlo]
    rfl
  · rw [List.getElem?_eq_none, Option.getD_none]
    rw [List.length_append, List.length_replicate, hlen]
    simp only [InImage] at hout
    omega

/-- What a quiet instruction is: it executes, and makes no access. -/
theorem quiet_eq_some {d d' : Core} (h : s.quiet d = some d') :
    (s.code d.pc ≠ .halt ∧ s.code d.pc ≠ .undefined) ∧ d.access (s.code d.pc) = none ∧
      ∀ mem, d.execute (s.code d.pc) mem = d' := by
  simp only [quiet] at h
  split_ifs at h with hv
  simp only [visible] at hv
  cases hc : s.code d.pc with
  | halt => simp [hc] at h
  | undefined => simp [hc] at h
  | load rd ra => simp [hc] at hv
  | stor rs ra => simp [hc] at hv
  | rtype op rd rs =>
    simp only [hc, Option.some.injEq] at h
    exact ⟨⟨by rintro ⟨⟩, by rintro ⟨⟩⟩, rfl, fun _ => h⟩
  | itype op rd imm =>
    simp only [hc, Option.some.injEq] at h
    exact ⟨⟨by rintro ⟨⟩, by rintro ⟨⟩⟩, rfl, fun _ => h⟩
  | branch cond disp =>
    simp only [hc, Option.some.injEq] at h
    exact ⟨⟨by rintro ⟨⟩, by rintro ⟨⟩⟩, rfl, fun _ => h⟩
  | jump cond rt =>
    simp only [hc, Option.some.injEq] at h
    exact ⟨⟨by rintro ⟨⟩, by rintro ⟨⟩⟩, rfl, fun _ => h⟩

/-- A CPU on its way to a point executes the image. -/
theorem Sim.running {d : Core} (h : s.Sim t d) :
    s.code d.pc ≠ .halt ∧ s.code d.pc ≠ .undefined := by
  cases hq : s.quiet d with
  | some d' => exact (quiet_eq_some hq).1
  | none => exact (Corr.follows (fun _ => 0) (h.of_stop hq)).running

/-- The next instruction of a CPU on its way to a point is the image's. -/
theorem Sim.current (h : s.Sim t c.toCore) (hl : s.Loaded c.mem) : c.current = s.code c.pc :=
  hl.decode_eq (inImage_of_code_ne_halt h.running.1)

/-- **One step of the CPU.** Either a quiet instruction on the way to the same point, or the
strategy's step. -/
theorem Sim.step (h : s.Sim t c.toCore) (hl : s.Loaded c.mem) (hs : c.Steps c') :
    (c.toCore.access c.current = none ∧ c'.mem = c.mem ∧ s.Sim t c'.toCore) ∨
      (s.Corr t c.toCore ∧ c.toCore.access c.current = t.access s ∧
        c'.mem = Access.applyOpt c.mem (t.access s) ∧ s.Sim (t.step s c.mem) c'.toCore) := by
  obtain ⟨hcore, hmem⟩ := hs.eq
  rw [h.current hl] at hcore hmem ⊢
  cases hq : s.quiet c.toCore with
  | some d =>
    obtain ⟨-, hnone, hexec⟩ := quiet_eq_some hq
    refine .inl ⟨hnone, by rw [hmem, hnone, Access.applyOpt_none], ?_⟩
    rw [hcore, hexec]
    exact Leads.of_step h hq
  | none =>
    have hcorr := h.of_stop hq
    have hf := hcorr.follows c.mem
    refine .inr ⟨hcorr, hf.access, by rw [hmem, hf.access], ?_⟩
    rw [hcore]
    exact hf.sim

/-- **Refinement.** The CPU with the image of a strategy in its RAM simulates the strategy, as
long as the environment stores nothing into the program area. -/
theorem simulates (s : Strategy) :
    cpuMachine.Simulates s.machine s.Rel (fun a => inputBase ≤ a) where
  mem h := h.mem
  store {a b x} h hx := by
    obtain ⟨hsim, hl, hm⟩ := h
    refine ⟨hsim, ?_, by simp only [cpuMachine, machine, hm]⟩
    cases x with
    | none => exact hl
    | some x =>
      cases x with
      | load c => exact hl
      | store c v => exact hl.update (hx c v rfl) v
  step {a a' b} h hs := by
    obtain ⟨hsim, hl, hm⟩ := h
    rcases hsim.step hl hs with ⟨hnone, hmem, hsim'⟩ | ⟨hcorr, hacc, hmem, hsim'⟩
    · refine .inl ⟨by simp [cpuMachine, hnone], hsim', ?_, ?_⟩
      · rwa [hmem]
      · rw [hmem, hm]
    · refine .inr ⟨_, rfl, ?_, ?_, ?_, ?_⟩
      · simp only [machine, cpuMachine, hacc, hcorr.pc]
      · rwa [← hm]
      · rw [hmem]
        exact hl.applyOpt_access
      · rw [hmem, hm]
  reset {a a' b} h hs := by
    obtain ⟨hsim, hl, hm⟩ := h
    subst hs
    exact ⟨_, ⟨_, rfl⟩, sim_initial s _ rfl, hl, hm⟩

/-- A CPU at `PROGRAM_BASE` with the image in the RAM is related to the strategy in `INIT`. -/
theorem rel_initial (hl : s.Loaded c.mem) (hpc : c.pc = programBase) :
    ∃ r, s.Rel c (Thread.initial s r, c.mem) :=
  ⟨_, sim_initial s c.toCore hpc, hl, rfl⟩

/-! ### What the registers hold on the way -/

/-- No quiet instruction writes R13. -/
theorem target_ne_position (s : Strategy) (p : Addr) (hv : s.visible p = false) :
    (s.code p).target ≠ some 13 := by
  have hlisting : ∀ n < 8 + s.image.length, s.visible (BitVec.ofNat 10 n) = false →
      (s.code (BitVec.ofNat 10 n)).target ≠ some 13 := by
    cases s <;> decide +kernel
  intro ht
  have himage : s.InImage p := inImage_of_code_ne_halt fun hc => by
    rw [hc] at ht
    cases ht
  have h := hlisting p.toNat himage.2
  rw [BitVec.ofNat_toNat, BitVec.setWidth_eq] at h
  exact h hv ht

/-- **Frame.** R13 is the position all the way. -/
theorem Sim.position {d : Core} (h : s.Sim t d) : d.regs 13 = t.regs.position := by
  refine Leads.frame (f := fun e : Core => e.regs 13) h (fun e e' hq => ?_)
    fun e he => he.live.position
  have hv : s.visible e.pc = false := by
    cases hv : s.visible e.pc with
    | false => rfl
    | true => simp [quiet, hv] at hq
  have hexec := (quiet_eq_some hq).2.2 fun _ => 0
  rw [← hexec, Core.execute_regs_of_ne (s.target_ne_position e.pc hv)]

/-- A CPU on its way that is at a visible instruction has arrived. -/
theorem Sim.corr {d : Core} (h : s.Sim t d) (hv : s.visible d.pc = true) : s.Corr t d :=
  h.of_stop (by simp only [quiet, hv]; rfl)

/-! ### Progress -/

/-- A CPU on its way to a point gets there. -/
theorem Sim.reaches (h : s.Sim t c.toCore) (hl : s.Loaded c.mem) :
    ∃ d : Cpu, Relation.ReflTransGen (fun x y => x.Steps y ∧ cpuMachine.event x = none) c d ∧
      s.Sim t d.toCore ∧ s.quiet d.toCore = none ∧ d.mem = c.mem := by
  obtain ⟨core, hcore⟩ : ∃ core, c.toCore = core := ⟨_, rfl⟩
  have h' : Leads s.quiet (s.Corr t) core := hcore ▸ h
  clear h
  induction h' generalizing c with
  | stop hq hQ => exact ⟨c, .refl, hcore ▸ .stop hq hQ, hcore ▸ hq, rfl⟩
  | @step d d' hq hL ih =>
    have hsim : s.Sim t c.toCore := hcore ▸ Leads.step hq hL
    obtain ⟨⟨-, hundef⟩, hacc, hexec⟩ := quiet_eq_some hq
    have hcur := hsim.current hl
    have hpc : c.pc = d.pc := congrArg Core.pc hcore
    rw [hpc] at hcur
    obtain ⟨c₁, hs⟩ := Cpu.exists_steps (hcur ▸ hundef)
    obtain ⟨hcore₁, hmem₁⟩ := hs.eq
    have hnone : c.toCore.access c.current = none := by rw [hcur, hcore, hacc]
    rw [hnone, Access.applyOpt_none] at hmem₁
    rw [hcur, hcore, hexec] at hcore₁
    obtain ⟨e, hrun, hsim', hquiet, hmem⟩ := ih (hmem₁ ▸ hl) hcore₁
    refine ⟨e, .head ⟨hs, ?_⟩ hrun, hsim', hquiet, hmem.trans hmem₁⟩
    simp only [cpuMachine, hnone, Option.map_none]

/-- **Progress.** The CPU makes every step of the strategy. -/
theorem realises (s : Strategy) : cpuMachine.Realises s.machine s.Rel where
  step {a b b'} h hs := by
    obtain ⟨hsim, hl, hm⟩ := h
    obtain ⟨d, hrun, hsim', hquiet, hmem⟩ := hsim.reaches hl
    have hl' : s.Loaded d.mem := hmem ▸ hl
    have hundef : d.current ≠ .undefined := by
      rw [hsim'.current hl']
      exact hsim'.running.2
    obtain ⟨e, he⟩ := Cpu.exists_steps hundef
    have hdm : d.mem = b.2 := hmem.trans hm
    have hcorr := hsim'.of_stop hquiet
    obtain ⟨hcore, hmem'⟩ := he.eq
    have hf := hcorr.follows d.mem
    rw [hsim'.current hl'] at hcore hmem'
    rw [hf.access] at hmem'
    subst hs
    refine ⟨d, e, hrun, ⟨hsim', hl', hdm⟩, he, ?_, ?_, ?_, ?_⟩
    · have hacc := hf.access
      rw [hcorr.pc] at hacc
      simp only [machine, cpuMachine, hsim'.current hl', hcorr.pc, hacc]
    · rw [hcore, ← hdm]
      exact hf.sim
    · rw [hmem']
      exact hl'.applyOpt_access
    · rw [hmem', hdm]

end Strategy

end Fmma
