import Fmma.Rtl.Golden

/-!
# The core refines the simulator

The core runs clock by clock while the host writes words of its own. Some of its clocks are steps of
the simulator: those that execute an instruction, and those that find a zero word. With the host's
writes behind them, clock by clock, they are one run of the simulator.
-/

namespace Fmma

/-- A write of the host. -/
def Cpu.hostWrite (c : Cpu) (w : HostWrite) : Cpu := { c with mem := w.apply c.mem }

/-- The simulator takes a step or none, and then the host writes. -/
inductive Cpu.Advances (c : Cpu) (w : HostWrite) : Cpu → Prop
  | waits : Advances c w (c.hostWrite w)
  | steps {d : Cpu} : c.Steps d → Advances c w (d.hostWrite w)

/-- The instructions the programs use: no undefined word, no unknown operation, no carry in. -/
def Decoded.Supported : Decoded → Prop
  | .rtype op _ _ | .itype op _ _ => ∃ o, op = some o ∧ o ≠ .ADDC ∧ o ≠ .SUBC
  | .undefined => False
  | _ => True

theorem Decoded.Supported.golden {d : Decoded} (h : d.Supported) (c : Core) : d.Golden c := by
  intro op rd hop
  have hsome : ∃ o, op = some o ∧ o ≠ .ADDC ∧ o ≠ .SUBC := by
    cases d with
    | rtype op' rd' rs =>
      obtain ⟨rfl, -⟩ := (Prod.mk.injEq ..).mp (Option.some_inj.mp hop)
      exact h
    | itype op' rd' imm =>
      obtain ⟨rfl, -⟩ := (Prod.mk.injEq ..).mp (Option.some_inj.mp hop)
      exact h
    | halt | load rd' ra | stor rs ra | branch cond disp | jump cond rt | undefined => cases hop
  obtain ⟨o, rfl, haddc, hsubc⟩ := hsome
  refine ⟨?_, fun hn => absurd hn (Option.some_ne_none o)⟩
  rintro (h | h)
  · exact absurd (Option.some_inj.mp h) haddc
  · exact absurd (Option.some_inj.mp h) hsubc

theorem Decoded.Supported.ne_undefined {d : Decoded} (h : d.Supported) : d ≠ .undefined := by
  rintro rfl
  exact h

/-- The state after a step, if there is one. -/
def Cpu.next (c : Cpu) : Cpu :=
  match c.step with
  | .ok x => x.2
  | .error _ => c

theorem Cpu.steps_next {c : Cpu} (h : c.current ≠ .undefined) : c.Steps c.next := by
  obtain ⟨d, hd⟩ := Cpu.exists_steps h
  have hstep : c.step = .ok (c.current, d) := hd
  rw [Cpu.Steps, Cpu.next, hstep]

/-- A step that is no halt poll is an instruction. -/
theorem Cpu.Steps.instructions {c d : Cpu} (h : c.Steps d) (hhalt : c.current ≠ .halt) :
    d.instructions = c.instructions + 1 := by
  simp only [Cpu.Steps, Cpu.step] at h
  split at h
  · next hd => exact absurd hd hhalt
  · cases h
  · rw [Except.ok.injEq, Prod.mk.injEq] at h
    rw [← h.2]

/-- Writes of two words commute. -/
theorem HostWrite.apply_update {w : HostWrite} {mem : Addr → Word} {b : Addr} {x : Word}
    (h : ∀ a v, w = some (a, v) → a ≠ b) :
    Function.update (w.apply mem) b x = w.apply (Function.update mem b x) := by
  cases w with
  | none => rfl
  | some y => exact Function.update_comm (h y.1 y.2 rfl) y.2 x mem

/-- The fields of a store. -/
theorem decode_eq_stor {w : Word} {rs ra : RegId} (h : decode w = .stor rs ra) :
    w ≠ 0 ∧ w.extractLsb' 12 4 = 0b0100 ∧ w.extractLsb' 4 4 = 0b0100 ∧ ra = w.extractLsb' 0 4 := by
  by_cases hw : w = 0
  · rw [decode, if_pos hw] at h
    cases h
  · simp only [decode, if_neg hw] at h
    split_ifs at h with hls hstor
    obtain ⟨-, rfl⟩ := (Decoded.stor.injEq ..).mp h
    exact ⟨hw, hls, hstor, rfl⟩

namespace Fabric

variable {s : Fabric} {w : Word} {host : HostWrite} {c : Cpu}

/-- The host leaves alone the word the core writes at the same edge, and the word at the PC while it
is fetched to be executed. -/
def Allows (s : Fabric) (host : HostWrite) : Prop :=
  ∀ a v, host = some (a, v) →
    (s.core.memWrite = true → a ≠ s.core.memAddr) ∧ (s.core.fsm.state = .S1 → a ≠ s.core.pc)

/-- The clock finds a zero word or executes an instruction. -/
def acts (s : Fabric) : Bool :=
  match s.core.fsm.state with
  | .S0 => false
  | .S1 | .hlt => s.word = 0
  | .S2 | .S3 | .S4 | .S5 | .S6 => true

/-- The simulator keeps up with a clock. -/
def follow (s : Fabric) (host : HostWrite) (c : Cpu) : Cpu :=
  Cpu.hostWrite (if s.acts then c.next else c) host

/-- The simulator is where the core is. -/
structure Agrees (s : Fabric) (c : Cpu) : Prop where
  core : s.toCore = c.toCore
  ram : s.ram = c.mem

theorem Agrees.current (h : s.Agrees c) : c.current = decode s.word := by
  have hpc : s.core.pc = c.pc := congrArg Core.pc h.core
  rw [Cpu.current, word, ← h.ram, ← hpc]

theorem Agrees.hostWrite (h : s.Agrees c) {t : Fabric} (hcore : t.toCore = s.toCore)
    (hram : t.ram = host.apply s.ram) : t.Agrees (c.hostWrite host) :=
  ⟨hcore.trans h.core, by rw [hram, h.ram]; rfl⟩

/-- An instruction is decoded, and will be executed in the next clock. -/
structure Ready (s : Fabric) : Prop where
  decoding : s.Decoding s.word
  supported : (decode s.word).Supported
  nonzero : s.word ≠ 0

/-- **The invariant**, by the state of the FSM. -/
inductive Phase (s : Fabric) : Prop
  | fetching : s.Fetching → Phase s
  | decoding : s.core.fsm = Fsm.idle .S1 → Phase s
  | halted : s.Quiet → s.core.fsm.state = .hlt → Phase s
  | ready : s.Ready → Phase s

/-- Nothing happens but the host's write. -/
theorem follow_of_waits (h : s.acts = false) : s.follow host c = c.hostWrite host := by
  rw [follow, h]
  rfl

theorem follow_of_acts (h : s.acts = true) : s.follow host c = c.next.hostWrite host := by
  rw [follow, h]
  rfl

/-- A halt poll. -/
theorem Agrees.poll (h : s.Agrees c) (hzero : s.word = 0) : s.Agrees c.next := by
  have hcur : c.current = .halt := by rw [h.current, hzero, decode_zero]
  have hne : c.current ≠ .undefined := by
    rw [hcur]
    exact Decoded.noConfusion
  obtain ⟨hcore, hmem⟩ := (Cpu.steps_next hne).eq
  rw [hcur] at hcore hmem
  exact ⟨h.core.trans hcore.symm, h.ram.trans hmem.symm⟩

/-- What the core stores, it stores where it says. -/
theorem Decoding.store (h : s.Decoding w) {a : Addr} {v : Word}
    (hstore : s.toCore.access (decode w) = some (.store a v)) :
    s.core.memWrite = true ∧ s.core.memAddr = a := by
  cases hd : decode w with
  | stor rs ra =>
    rw [hd] at hstore
    obtain ⟨hw, hls, hstor, rfl⟩ := decode_eq_stor hd
    obtain ⟨rfl, -⟩ := (Access.store.injEq ..).mp (Option.some_inj.mp hstore)
    obtain ⟨hir, hfsm⟩ := h
    simp only [Fsm.decode, if_neg hw, if_pos hls, if_pos hstor] at hfsm
    simp only [CpuCore.memWrite, CpuCore.memAddr, CpuCore.rAddr, hfsm, hir]
    exact ⟨trivial, rfl⟩
  | halt | rtype op rd rs | itype op rd imm | load rd ra | branch cond disp | jump cond rt |
    undefined =>
    rw [hd] at hstore
    cases hstore

/-- **The clock of an instruction** is a step of the simulator, before the host's write. -/
theorem Agrees.execute (h : s.Agrees c) (hready : s.Ready) (hallows : s.Allows host) :
    (s.clock host).Agrees (c.next.hostWrite host) := by
  have hund : decode s.word ≠ .undefined := hready.supported.ne_undefined
  have hhalt : decode s.word ≠ .halt := fun hd => hready.nonzero (decode_eq_halt_iff.mp hd)
  obtain ⟨hcore, hram, -⟩ := performs hready.decoding hhalt hund host
  have hcur := h.current
  obtain ⟨hcore', hmem'⟩ := (Cpu.steps_next (hcur ▸ hund)).eq
  rw [hcur] at hcore' hmem'
  refine ⟨?_, ?_⟩
  · have hperform := (Core.perform_eq_iff _ s.ram _).mpr (hready.supported.golden s.toCore)
    rw [hcore, hperform, h.core, h.ram]
    exact hcore'.symm
  · have hnext : (c.next.hostWrite host).mem = host.apply c.next.mem := rfl
    rw [hram, hnext, hmem', ← h.core, ← h.ram]
    cases haccess : s.toCore.access (decode s.word) with
    | none => rfl
    | some x =>
      cases x with
      | load a => rfl
      | store a v =>
        obtain ⟨hwrite, haddr⟩ := hready.decoding.store haccess
        refine HostWrite.apply_update fun b u hb => ?_
        rw [← haddr]
        exact (hallows b u hb).1 hwrite

/-! ### The phases -/

theorem Fetching.waits (h : s.Fetching) : s.acts = false := by
  rw [acts, h.state]

theorem acts_of_polls (h : s.core.fsm.state = .S1 ∨ s.core.fsm.state = .hlt) :
    s.acts = decide (s.word = 0) := by
  rw [acts]
  rcases h with h | h <;> rw [h]

theorem Ready.acts (h : s.Ready) : s.acts = true := by
  have hhalt : decode s.word ≠ .halt := fun hd => h.nonzero (decode_eq_halt_iff.mp hd)
  obtain ⟨hfetch, hdecode, hhlt⟩ := h.decoding.executes hhalt h.supported.ne_undefined
  rw [Fabric.acts]
  cases hs : s.core.fsm.state with
  | S0 => exact absurd hs hfetch
  | S1 => exact absurd hs hdecode
  | hlt => exact absurd hs hhlt
  | S2 | S3 | S4 | S5 | S6 => rfl

/-- An instruction has been fetched to be executed. -/
theorem ready_clock (h : s.core.fsm = Fsm.idle .S1) (hallows : s.Allows host)
    (hword : (decode s.word).Supported) (hzero : s.word ≠ 0) : (s.clock host).Ready := by
  obtain ⟨hcore, hram, hdec⟩ := decoding_clock h host
  have hsame : (s.clock host).word = s.word := by
    have hpc : (s.clock host).core.pc = s.core.pc := congrArg Core.pc hcore
    rw [word, hram, hpc]
    exact HostWrite.apply_of_ne fun a v ha => (hallows a v ha).2 (congrArg Fsm.state h)
  refine ⟨?_, ?_, ?_⟩ <;> rw [hsame]
  · exact hdec
  · exact hword
  · exact hzero

/-- The clock of an instruction ends in a fetch. -/
theorem Ready.clock (h : s.Ready) : (s.clock host).Fetching := by
  have hhalt : decode s.word ≠ .halt := fun hd => h.nonzero (decode_eq_halt_iff.mp hd)
  exact (performs h.decoding hhalt h.supported.ne_undefined host).fetching

/-- **One clock.** The simulator keeps up, whatever the phase. -/
theorem Phase.step (hphase : s.Phase) (h : s.Agrees c) (hallows : s.Allows host)
    (hword : s.core.fsm.state = .S1 → (decode s.word).Supported) :
    (s.clock host).Phase ∧ (s.clock host).Agrees (s.follow host c) := by
  cases hphase with
  | fetching hfetch =>
    obtain ⟨hcore, hram, hfsm⟩ := hfetch.clock host
    rw [follow_of_waits hfetch.waits]
    exact ⟨.decoding hfsm, h.hostWrite hcore hram⟩
  | decoding hdecode =>
    have hstate : s.core.fsm.state = .S1 := congrArg Fsm.state hdecode
    have hacts := acts_of_polls (.inl hstate)
    obtain ⟨hcore, hram, hdec⟩ := decoding_clock hdecode host
    by_cases hzero : s.word = 0
    · rw [decide_eq_true hzero] at hacts
      have hhalt : decode s.word = .halt := decode_eq_halt_iff.mpr hzero
      obtain ⟨hquiet, hhlt⟩ := hdec.parks (.inl hhalt)
      rw [follow_of_acts hacts]
      exact ⟨.halted hquiet hhlt, (h.poll hzero).hostWrite hcore hram⟩
    · rw [decide_eq_false hzero] at hacts
      rw [follow_of_waits hacts]
      exact ⟨.ready (ready_clock hdecode hallows (hword hstate) hzero), h.hostWrite hcore hram⟩
  | halted hquiet hstate =>
    have hacts := acts_of_polls (.inr hstate)
    obtain ⟨hcore, hram, -, hfsm⟩ := hquiet.clock host
    rw [Fsm.edge, hstate] at hfsm
    by_cases hzero : s.word = 0
    · have hidle : (s.clock host).core.fsm = Fsm.idle .hlt := hfsm.trans (if_pos hzero)
      rw [decide_eq_true hzero] at hacts
      rw [follow_of_acts hacts]
      exact ⟨.halted (quiet_of_idle hidle) (congrArg Fsm.state hidle),
        (h.poll hzero).hostWrite hcore hram⟩
    · have hidle : (s.clock host).core.fsm = Fsm.idle .S1 := hfsm.trans (if_neg hzero)
      rw [decide_eq_false hzero] at hacts
      rw [follow_of_waits hacts]
      exact ⟨.decoding hidle, h.hostWrite hcore hram⟩
  | ready hready =>
    rw [follow_of_acts hready.acts]
    exact ⟨.fetching hready.clock, h.execute hready hallows⟩

/-- Whatever the simulator does in a clock, it does by its own steps. -/
theorem Phase.advances (hphase : s.Phase) (h : s.Agrees c) :
    c.Advances host (s.follow host c) := by
  cases hacts : s.acts with
  | false =>
    rw [follow_of_waits hacts]
    exact .waits
  | true =>
    have hcur : c.current ≠ .undefined := by
      rw [h.current]
      have hpolls : s.core.fsm.state = .S1 ∨ s.core.fsm.state = .hlt →
          decode s.word ≠ .undefined := by
        intro hstate
        rw [acts_of_polls hstate, decide_eq_true_eq] at hacts
        rw [hacts, decode_zero]
        exact Decoded.noConfusion
      cases hphase with
      | fetching hfetch =>
        rw [hfetch.waits] at hacts
        cases hacts
      | decoding hdecode => exact hpolls (.inl (congrArg Fsm.state hdecode))
      | halted hquiet hstate => exact hpolls (.inr hstate)
      | ready hready => exact hready.supported.ne_undefined
    rw [follow_of_acts hacts]
    exact .steps (Cpu.steps_next hcur)

/-- In the fetch state the core is about to fetch. -/
theorem Phase.fetching_of_state (hphase : s.Phase) (h : s.core.fsm.state = .S0) : s.Fetching := by
  cases hphase with
  | fetching hfetch => exact hfetch
  | decoding hdecode => exact FsmState.noConfusion (h.symm.trans (congrArg Fsm.state hdecode))
  | halted hquiet hstate => exact FsmState.noConfusion (h.symm.trans hstate)
  | ready hready =>
    have hacts := hready.acts
    rw [acts, h] at hacts
    cases hacts

theorem Ready.state_ne (h : s.Ready) : s.core.fsm.state ≠ .S0 := by
  intro hstate
  have hacts := h.acts
  rw [Fabric.acts, hstate] at hacts
  cases hacts

/-! ### Runs -/

/-- The simulator's run beside that of the core. -/
def simulated (s : Fabric) (host : ℕ → HostWrite) (c : Cpu) : ℕ → Cpu
  | 0 => c
  | n + 1 => (Clocked.after clock s host n).follow (host n) (simulated s host c n)

/-- The simulator as it starts, on the RAM of the fabric. -/
def initial (s : Fabric) : Cpu := ⟨⟨fun _ => 0, .clear, 8⟩, s.ram, 0, 0, 0⟩

/-- A run the host and the programs have to make possible: the host does as it may, and what is
executed is supported. -/
def Proper (s : Fabric) (host : ℕ → HostWrite) : Prop :=
  ∀ n, (Clocked.after clock s host n).Allows (host n) ∧
    ((Clocked.after clock s host n).core.fsm.state = .S1 →
      (decode (Clocked.after clock s host n).word).Supported)

variable {hosts : ℕ → HostWrite}

/-- **The run.** After every clock the simulator is where the core is. -/
theorem run_agrees (hreset : s.AfterReset) (hproper : s.Proper hosts) (n : ℕ) :
    (Clocked.after clock s hosts n).Phase ∧
      (Clocked.after clock s hosts n).Agrees (s.simulated hosts s.initial n) := by
  induction n with
  | zero =>
    obtain ⟨d, m, hcore⟩ := hreset
    have hfsm : s.core.fsm = Fsm.idle .S0 := by rw [hcore]; rfl
    have hstart : s.toCore = s.initial.toCore := by rw [toCore, hcore]; rfl
    exact ⟨.fetching ⟨quiet_of_idle hfsm, congrArg Fsm.state hfsm⟩, hstart, rfl⟩
  | succ n ih =>
    obtain ⟨hphase, hagrees⟩ := ih
    exact hphase.step hagrees (hproper n).1 (hproper n).2

/-- **Three clocks.** An instruction that is fetched in the fetch state is executed by the third
clock, by one step of the simulator. -/
theorem three_clocks (hreset : s.AfterReset) (hproper : s.Proper hosts) (n : ℕ)
    (hstate : (Clocked.after clock s hosts n).core.fsm.state = .S0)
    (hzero : (Clocked.after clock s hosts (n + 1)).word ≠ 0) :
    (Clocked.after clock s hosts (n + 1)).core.fsm.state ≠ .S0 ∧
      (Clocked.after clock s hosts (n + 2)).core.fsm.state ≠ .S0 ∧
      (Clocked.after clock s hosts (n + 3)).core.fsm.state = .S0 ∧
      (s.simulated hosts s.initial (n + 3)).instructions =
        (s.simulated hosts s.initial n).instructions + 1 := by
  have hfetch := (run_agrees hreset hproper n).1.fetching_of_state hstate
  obtain ⟨-, -, hdecode⟩ := hfetch.clock (hosts n)
  have hfirst : (Clocked.after clock s hosts (n + 1)).core.fsm = Fsm.idle .S1 := hdecode
  have hS1 : (Clocked.after clock s hosts (n + 1)).core.fsm.state = .S1 := congrArg Fsm.state hfirst
  have hready : (Clocked.after clock s hosts (n + 2)).Ready :=
    ready_clock hfirst (hproper (n + 1)).1 ((hproper (n + 1)).2 hS1) hzero
  have hacts : (Clocked.after clock s hosts (n + 1)).acts = false := by
    rw [acts_of_polls (.inl hS1), decide_eq_false hzero]
  have hsecond := (run_agrees hreset hproper (n + 2)).2
  have hund : (s.simulated hosts s.initial (n + 2)).current ≠ .undefined := by
    rw [hsecond.current]
    exact hready.supported.ne_undefined
  have hhalt : (s.simulated hosts s.initial (n + 2)).current ≠ .halt := by
    rw [hsecond.current]
    exact fun hd => hready.nonzero (decode_eq_halt_iff.mp hd)
  refine ⟨?_, hready.state_ne, hready.clock.state, ?_⟩
  · rw [hS1]
    exact FsmState.noConfusion
  · have hcount := (Cpu.steps_next hund).instructions hhalt
    simp only [simulated] at hcount ⊢
    rw [follow_of_acts hready.acts]
    rw [follow_of_waits hacts, follow_of_waits hfetch.waits] at hcount ⊢
    exact hcount

end Fabric

open Clocked (after)

open Fabric (clock)

/-- **The core implements the simulator's instruction set**, whatever the host writes. There is one
run of the simulator, between the host's writes, that is where the core is after every clock; and
an instruction that starts in the fetch state takes three clocks. -/
theorem core_refines_cpu (s : Fabric) (host : ℕ → HostWrite) (hreset : s.AfterReset)
    (hproper : s.Proper host) : ∃ c : ℕ → Cpu, c 0 = s.initial ∧
      (∀ n, (c n).Advances (host n) (c (n + 1))) ∧ (∀ n, (after clock s host n).Agrees (c n)) ∧
      ∀ n, (after clock s host n).core.fsm.state = .S0 → (after clock s host (n + 1)).word ≠ 0 →
        (after clock s host (n + 1)).core.fsm.state ≠ .S0 ∧
        (after clock s host (n + 2)).core.fsm.state ≠ .S0 ∧
        (after clock s host (n + 3)).core.fsm.state = .S0 ∧
        (c (n + 3)).instructions = (c n).instructions + 1 := by
  refine ⟨s.simulated host s.initial, rfl, fun n => ?_, fun n => ?_, fun n => ?_⟩
  · obtain ⟨hphase, hagrees⟩ := Fabric.run_agrees hreset hproper n
    exact hphase.advances hagrees
  · exact (Fabric.run_agrees hreset hproper n).2
  · exact Fabric.three_clocks hreset hproper n

end Fmma
