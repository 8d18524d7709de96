import Fmma.Sim.Lockstep
import Fmma.Board
import Fmma.Strategy.Runs

/-!
# What the registers hold at power-up

Two runs of a strategy from `PROGRAM_BASE`, with the same RAM and the same stores of the host but
any registers and flags, stay in step: no register and no flag is read before it is written. The
cut points are `INIT`, where nothing is agreed on, the head of the main loop, and the loop of the
failed datapath probe.
-/

namespace Fmma

/-! ### Runs under a schedule -/

namespace Cpu

/-- A run in which the host makes the stores of the schedule's next entry before each instruction:
for each instruction, where it is and the access it makes. -/
def trace : List (List (Addr × Word)) → Cpu →
    Except HaltForever (List (Addr × Option (Access Addr Word)))
  | [], _ => .ok []
  | l :: schedule, c =>
    match (c.writes l).step with
    | .error e => .error e
    | .ok (_, c') =>
      match trace schedule c' with
      | .error e => .error e
      | .ok rest => .ok (((c.writes l).pc, (c.writes l).toCore.access (c.writes l).current) :: rest)

variable {c d : Cpu}

/-- The trace of a run, from that after its first instruction. -/
theorem trace_cons {c' : Cpu} {l : List (Addr × Word)} {schedule : List (List (Addr × Word))}
    {tr : List (Addr × Option (Access Addr Word))} (hs : (c.writes l).Steps c')
    (htr : c'.trace schedule = .ok tr) :
    c.trace (l :: schedule) =
      .ok (((c.writes l).pc, (c.writes l).toCore.access (c.writes l).current) :: tr) := by
  rw [Cpu.Steps] at hs
  simp only [trace, hs, htr]

end Cpu

namespace Strategy

variable {s : Strategy} {c d : Cpu}

/-! ### The cut points -/

/-- Where the programs go when the datapath probe fails. -/
def mismatchAt (s : Strategy) : Addr := s.pick 158 182

/-- What two runs agree on at `INIT`, at `LOOP` and at `ISA_MISMATCH`. -/
def cuts (s : Strategy) : Cuts :=
  [(programBase, ⟨[], false, []⟩),
    (s.loopAt, ⟨[0, 1, 2, 3, 9, 11, 12, 13, 14, 15] ++ s.pick [] [10], false,
      [(15, asWord s.loopAt)]⟩),
    (s.mismatchAt, ⟨[1, 3, 12], false, []⟩)]

/-- **Written before read.** Along every path between cut points, whatever is read has been
written, or is among the registers that live across passes. -/
theorem cuts_closed (s : Strategy) : s.cuts.Closed s.code 130 := by
  cases s <;> decide +kernel

/-! ### Two runs -/

/-- Two CPUs that run the strategy in step. -/
structure Twins (s : Strategy) (c d : Cpu) : Prop where
  left : s.Runs c
  right : s.Runs d
  mem : c.mem = d.mem
  lockstep : Lockstep s.code s.cuts c.toCore d.toCore

/-- At `PROGRAM_BASE` nothing has to be agreed on but the RAM. -/
theorem twins_initial (hc : c.pc = programBase) (hd : d.pc = programBase) (hl : s.Loaded c.mem)
    (hmem : c.mem = d.mem) : s.Twins c d := by
  refine ⟨.of_programBase hl hc, .of_programBase (hmem ▸ hl) hd, hmem, 130, ⟨[], false, []⟩, ?_,
    hc.trans hd.symm, by rintro r ⟨⟩, by rintro ⟨⟩, by rintro q ⟨⟩⟩
  rw [hc]
  exact s.cuts_closed (programBase, ⟨[], false, []⟩) List.mem_cons_self

/-- The host stores the same to both RAMs. -/
theorem Twins.writes (h : s.Twins c d) {l : List (Addr × Word)} (hl : ∀ w ∈ l, ¬s.InImage w.1) :
    s.Twins (c.writes l) (d.writes l) := by
  refine ⟨h.left.writes hl, h.right.writes hl, Cpu.writes_mem h.mem l, ?_⟩
  rw [Cpu.writes_toCore, Cpu.writes_toCore]
  exact h.lockstep

/-- **One instruction in both runs**: at the same word, with the same access. -/
theorem Twins.step (h : s.Twins c d) : ∃ c' d', c.Steps c' ∧ d.Steps d' ∧ s.Twins c' d' ∧
    c.pc = d.pc ∧ c.toCore.access c.current = d.toCore.access d.current := by
  obtain ⟨c', hc⟩ := Cpu.exists_steps h.left.executes.2
  obtain ⟨d', hd⟩ := Cpu.exists_steps h.right.executes.2
  obtain ⟨hpc, hacc, hlock⟩ := h.lockstep.step s.cuts_closed c.mem
  rw [← h.left.current, ← h.right.current] at hacc hlock
  obtain ⟨hcore, hmem⟩ := hc.eq
  obtain ⟨hcore', hmem'⟩ := hd.eq
  refine ⟨c', d', hc, hd, ⟨h.left.step hc, h.right.step hd, ?_, ?_⟩, hpc, hacc⟩
  · rw [hmem, hmem', hacc, h.mem]
  · rw [hcore, hcore', ← h.mem]
    exact hlock

/-- Runs under the same schedule have the same trace. -/
theorem Twins.trace (h : s.Twins c d) {schedule : List (List (Addr × Word))}
    (hs : ∀ l ∈ schedule, ∀ w ∈ l, ¬s.InImage w.1) :
    ∃ tr, tr.length = schedule.length ∧ c.trace schedule = .ok tr ∧
      d.trace schedule = .ok tr := by
  induction schedule generalizing c d with
  | nil => exact ⟨[], rfl, rfl, rfl⟩
  | cons l schedule ih =>
    have htwins := h.writes (hs l List.mem_cons_self)
    obtain ⟨c', d', hc, hd, htwins', hpc, hacc⟩ := htwins.step
    obtain ⟨tr, hlen, htr, htr'⟩ := ih htwins' fun l' hl' => hs l' (List.mem_cons_of_mem l hl')
    refine ⟨_, ?_, Cpu.trace_cons hc htr, hpc ▸ hacc ▸ Cpu.trace_cons hd htr'⟩
    rw [List.length_cons, List.length_cons, hlen]

end Strategy

/-- **Independence of the power-up contents.** Two runs from `PROGRAM_BASE` with the same RAM and
the same schedule of stores outside the image execute the same words and make the same accesses,
whatever their registers and flags hold in the beginning. -/
theorem powerUp_independent (s : Strategy) {c d : Cpu} (hc : c.pc = programBase)
    (hd : d.pc = programBase) (hl : s.Loaded c.mem) (hmem : c.mem = d.mem)
    {schedule : List (List (Addr × Word))} (hs : ∀ l ∈ schedule, ∀ w ∈ l, ¬s.InImage w.1) :
    ∃ tr, tr.length = schedule.length ∧ c.trace schedule = .ok tr ∧ d.trace schedule = .ok tr :=
  (Strategy.twins_initial hc hd hl hmem).trace hs

/-- The CPU after power-up with the same word in every register and every flag set. -/
def poisoned (v : Word) (m : Addr → Word) : Cpu where
  regs := fun _ => v
  flags := ⟨true, true, true, true, true⟩
  pc := programBase
  mem := m
  cycles := 0
  instructions := 0
  haltedPolls := 0

/-- The quote 100/102 is there before the first instruction. -/
def quoteFirst (n : Nat) : List (List (Addr × Word)) :=
  [(tickSeq, 2), (bid, 100), (ask, 102)] :: List.replicate n []

/-- `market_maker.asm` with zeros and with other contents in the registers, 120 instructions long:
both runs adopt the quote alike. -/
theorem powerUp_independent_poisoned : ∃ tr, tr.length = 120 ∧
    (poisoned 0 (Strategy.marketMaker.install fun _ => 0)).trace (quoteFirst 119) = .ok tr ∧
    (poisoned 0xDEADBEEF (Strategy.marketMaker.install fun _ => 0)).trace (quoteFirst 119) =
      .ok tr := by
  have hs : ∀ l ∈ quoteFirst 119, ∀ w ∈ l, ¬Strategy.marketMaker.InImage w.1 := by
    intro l hl w hw
    refine Strategy.not_inImage_of_inputBase_le ?_
    rcases List.mem_cons.mp hl with rfl | hl
    · fin_cases hw <;> decide
    · rw [List.eq_of_mem_replicate hl] at hw
      cases hw
  exact powerUp_independent .marketMaker (c := poisoned 0 _) (d := poisoned 0xDEADBEEF _) rfl rfl
    (Strategy.marketMaker.loaded_install _) rfl hs

end Fmma
