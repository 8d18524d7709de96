import Fmma.Host
import Fmma.Strategy.Refine

/-!
# The board

The CPU and the host around the shared RAM. A property of the board is about the runs of
`cpuMachine` in an environment that stands for the host, from `boot`. `board_invariant` is the
rule the proofs use: to keep an invariant along every run of the CPU, it is enough to keep it
along the steps of the strategy and of the host.
-/

namespace Fmma

variable {η : Type*}

/-- An environment of the CPU. -/
abbrev Host (η : Type*) := Env Addr Addr Word η

/-- Power-up and reset: the CPU is at `PROGRAM_BASE`, with anything in its registers and flags,
the image of a strategy is in the RAM, and RAM and host are as `init` says. -/
def boot (s : Strategy) (init : (Addr → Word) → η → Prop) (a : Cpu × η) : Prop :=
  a.1.pc = programBase ∧ s.Loaded a.1.mem ∧ init a.1.mem a.2

/-- The host stores into the shared blocks only. -/
abbrev Host.OnlyShared (E : Host η) : Prop := E.StoresWithin fun a => inputBase ≤ a

/-- **The invariant rule**: the steps of a strategy in an environment, one kind at a time. -/
theorem strategy_invariant (s : Strategy) {E : Host η}
    {I : Thread → (Addr → Word) → η → Prop}
    (internal : ∀ t m h, I t m h → t.access s = none → I (t.step s m) m h)
    (access : ∀ t m h x, I t m h → t.access s = some x → E.permits h (s.pcOf t.point) x m →
      I (t.step s m) (x.apply m) (E.observe h (s.pcOf t.point) x m))
    (act : ∀ t m h x h', I t m h → E.act h m x h' → I t (Access.applyOpt m x) h')
    (reset : ∀ t m h h' r, I t m h → E.reset h h' → I (Thread.initial s r) m h')
    {a b : (Thread × (Addr → Word)) × η} (ha : I a.1.1 a.1.2 a.2) (h : s.machine.Step E a b) :
    I b.1.1 b.1.2 b.2 := by
  cases h with
  | @internal a a' h hs he =>
    cases hs
    have hnone : a.1.access s = none := by simpa [Strategy.machine] using he
    simpa [hnone] using internal _ _ _ ha hnone
  | @access a a' h i x hs he hp =>
    cases hs
    obtain ⟨hx, rfl⟩ : a.1.access s = some x ∧ s.pcOf a.1.point = i := by
      simpa [Strategy.machine] using he
    have hI := access _ _ _ x ha hx hp
    simp only [hx, Access.applyOpt_some]
    exact hI
  | @act a h h' x hx => exact act _ _ _ x _ ha hx
  | @reset a a' h h' hr hh =>
    obtain ⟨r, rfl⟩ := hr
    exact reset _ _ _ _ r ha hh

/-- **The invariant rule for the board**: what `INIT` establishes and every step of the strategy
and of the host keeps holds in every reachable state of the CPU, for a strategy the CPU is
related to. -/
theorem board_invariant (s : Strategy) {E : Host η} (hE : E.OnlyShared)
    {init : (Addr → Word) → η → Prop} {I : Thread → (Addr → Word) → η → Prop}
    (start : ∀ r m h, init m h → I (Thread.initial s r) m h)
    (internal : ∀ t m h, I t m h → t.access s = none → I (t.step s m) m h)
    (access : ∀ t m h x, I t m h → t.access s = some x → E.permits h (s.pcOf t.point) x m →
      I (t.step s m) (x.apply m) (E.observe h (s.pcOf t.point) x m))
    (act : ∀ t m h x h', I t m h → E.act h m x h' → I t (Access.applyOpt m x) h')
    (reset : ∀ t m h h' r, I t m h → E.reset h h' → I (Thread.initial s r) m h')
    {c : Cpu} {h : η} (hr : cpuMachine.Reachable E (boot s init) (c, h)) :
    ∃ t, s.Sim t c.toCore ∧ s.Loaded c.mem ∧ I t c.mem h := by
  have hinit : ∀ a, boot s init a → ∃ b, s.Rel a.1 b ∧ I b.1 b.2 a.2 := by
    rintro a ⟨hpc, hl, hinit⟩
    obtain ⟨r, hrel⟩ := s.rel_initial hl hpc
    exact ⟨_, hrel, start r _ _ hinit⟩
  obtain ⟨⟨t, m⟩, ⟨hsim, hl, hm⟩, hI⟩ := hr.transfer s.simulates hE
    (I := fun a => I a.1.1 a.1.2 a.2) hinit
    fun a b ha hs => strategy_invariant s internal access act reset ha hs
  cases hm
  exact ⟨t, hsim, hl, hI⟩

/-! ### Concrete runs -/

/-- The CPU after a reset, with a given RAM. -/
def powerUp (m : Addr → Word) : Cpu where
  regs := fun _ => 0
  flags := .clear
  pc := programBase
  mem := m
  cycles := 0
  instructions := 0
  haltedPolls := 0

/-- A strategy and its environment, with the memory between them. -/
abbrev StrategyState (η : Type*) := (Thread × (Addr → Word)) × η

/-- One step of the strategy in an environment. -/
def Strategy.advance (s : Strategy) (E : Host η) (a : StrategyState η) : StrategyState η :=
  ((a.1.1.step s a.1.2, Access.applyOpt a.1.2 (a.1.1.access s)),
    match a.1.1.access s with
    | none => a.2
    | some x => E.observe a.2 (s.pcOf a.1.1.point) x a.1.2)

/-- The environment permits the next step. -/
def Strategy.Permitted (s : Strategy) (E : Host η) (a : StrategyState η) : Prop :=
  ∀ x, a.1.1.access s = some x → E.permits a.2 (s.pcOf a.1.1.point) x a.1.2

/-- A permitted step. -/
theorem Strategy.step_advance {s : Strategy} {E : Host η} {a : StrategyState η}
    (hp : s.Permitted E a) : s.machine.Step E a (s.advance E a) := by
  obtain ⟨⟨t, m⟩, h⟩ := a
  cases hx : t.access s with
  | none =>
    simp only [advance, hx]
    exact .internal (by simp only [machine, hx]) (by simp only [machine, hx, Option.map_none])
  | some x =>
    simp only [advance, hx]
    exact .access (M := s.machine) (by simp only [machine, hx])
      (by simp only [machine, hx, Option.map_some]) (hp x hx)

/-- A step of the environment. -/
theorem Strategy.step_act {s : Strategy} {E : Host η} {t : Thread} {m : Addr → Word} {h h' : η}
    {x : Option (Access Addr Word)} (hx : E.act h m x h') :
    s.machine.Step E ((t, m), h) ((t, Access.applyOpt m x), h') :=
  .act (M := s.machine) (a := (t, m)) hx

/-- A line of a script: some steps of the strategy, or one command to the host. -/
inductive Line (κ : Type*)
  | cpu (n : Nat)
  | host (k : κ)

/-- How to play a script in an environment: what the host does on a command, and a test for
the permitted steps. -/
structure Director (s : Strategy) (E : Host η) (κ : Type*) where
  perform : κ → η → (Addr → Word) → Option (Option (Access Addr Word) × η)
  ok : StrategyState η → Bool
  perform_act : ∀ {k h m x h'}, perform k h m = some (x, h') → E.act h m x h'
  ok_permitted : ∀ {a}, ok a = true → s.Permitted E a

namespace Director

variable {s : Strategy} {E : Host η} {κ : Type*}

/-- `n` steps of the strategy. -/
def run (D : Director s E κ) : Nat → StrategyState η → Option (StrategyState η)
  | 0, a => some a
  | n + 1, a => if D.ok a then D.run n (s.advance E a) else none

/-- Playing a script. -/
def play (D : Director s E κ) : List (Line κ) → StrategyState η → Option (StrategyState η)
  | [], a => some a
  | .cpu n :: l, a => (D.run n a).bind (D.play l)
  | .host k :: l, a =>
    (D.perform k a.2 a.1.2).bind fun y => D.play l ((a.1.1, Access.applyOpt a.1.2 y.1), y.2)

theorem run_reaches {D : Director s E κ} {n : Nat} {a b : StrategyState η}
    (h : D.run n a = some b) : Relation.ReflTransGen (s.machine.Step E) a b := by
  induction n generalizing a with
  | zero =>
    cases h
    exact .refl
  | succ n ih =>
    simp only [run] at h
    split_ifs at h with hok
    exact .head (Strategy.step_advance (D.ok_permitted hok)) (ih h)

/-- What a script plays is a run. -/
theorem play_reaches {D : Director s E κ} {l : List (Line κ)} {a b : StrategyState η}
    (h : D.play l a = some b) : Relation.ReflTransGen (s.machine.Step E) a b := by
  induction l generalizing a with
  | nil =>
    cases h
    exact .refl
  | cons k l ih =>
    cases k with
    | cpu n =>
      obtain ⟨c, hc, h⟩ := Option.bind_eq_some_iff.mp h
      exact (run_reaches hc).trans (ih h)
    | host k =>
      obtain ⟨⟨x, h'⟩, hx, h⟩ := Option.bind_eq_some_iff.mp h
      exact .head (Strategy.step_act (D.perform_act hx)) (ih h)

/-- Scripts for an environment with a further condition, from a test of the condition. -/
def restrict (D : Director s E κ) (okMachine : η → Addr → Access Addr Word → (Addr → Word) → Prop)
    (okAct : η → (Addr → Word) → Option (Access Addr Word) → Prop)
    [∀ h m x, Decidable (okAct h m x)] (test : StrategyState η → Bool)
    (htest : ∀ a, test a = true → ∀ x, a.1.1.access s = some x →
      okMachine a.2 (s.pcOf a.1.1.point) x a.1.2) :
    Director s (E.restrict okMachine okAct) κ where
  perform k h m := (D.perform k h m).filter fun y => decide (okAct h m y.1)
  ok a := D.ok a && test a
  perform_act hk := by
    obtain ⟨hk, hok⟩ := Option.filter_eq_some_iff.mp hk
    exact ⟨D.perform_act hk, of_decide_eq_true hok⟩
  ok_permitted ha x hx := by
    obtain ⟨hD, ht⟩ := Bool.and_eq_true_iff.mp ha
    exact ⟨D.ok_permitted hD x hx, htest _ ht x hx⟩

end Director

/-- `INIT` with zeros in the registers. -/
def Strategy.cold (s : Strategy) : Thread := Thread.initial s ⟨0, 0, 0, 0, 0, 0, 0, 0⟩

/-- A run of the strategy from `INIT` is one of the CPU, which can be taken to be at the point
where it ends. -/
theorem exists_reachable (s : Strategy) {E : Host η} (hE : E.OnlyShared)
    (hreset : ∀ h h', ¬E.reset h h') {init : (Addr → Word) → η → Prop} {m m' : Addr → Word}
    {h h' : η} {t : Thread} (hinit : init (s.install m) h)
    (hrun : Relation.ReflTransGen (s.machine.Step E) ((s.cold, s.install m), h) ((t, m'), h')) :
    ∃ c : Cpu, cpuMachine.Reachable E (boot s init) (c, h') ∧ s.Corr t c.toCore ∧ c.mem = m' := by
  have hrel : s.Rel (powerUp (s.install m)) (s.cold, s.install m) :=
    ⟨Strategy.sim_initial s (powerUp (s.install m)).toCore rfl, s.loaded_install m, rfl⟩
  obtain ⟨c, hc, hcpu⟩ := s.simulates.realise_run s.realises hE hreset hrun hrel
  obtain ⟨d, hd, hsim, hquiet, hmem⟩ := hc.sim.reaches hc.loaded
  refine ⟨d, ⟨(powerUp (s.install m), h), ⟨rfl, s.loaded_install m, hinit⟩, ?_⟩,
    hsim.of_stop hquiet, hmem.trans hc.mem⟩
  exact hcpu.trans (Machine.Step.internals h' hd)

/-- **Playing a script on the board.** If the script ends with the test `P`, the CPU can reach
a state in which it is at a point, and strategy, RAM and host are as `P` says. -/
theorem Director.exists_reachable {s : Strategy} {E : Host η} {κ : Type*} (D : Director s E κ)
    (hE : E.OnlyShared) (hreset : ∀ h h', ¬E.reset h h') (init : (Addr → Word) → η → Prop)
    {m : Addr → Word} {h : η} (hinit : init (s.install m) h) (l : List (Line κ))
    {P : StrategyState η → Bool}
    (hplay : (D.play l ((s.cold, s.install m), h)).any P = true) :
    ∃ t c h', cpuMachine.Reachable E (boot s init) (c, h') ∧ s.Corr t c.toCore ∧
      P ((t, c.mem), h') = true := by
  obtain ⟨⟨⟨t, m'⟩, h'⟩, hb, hP⟩ := (Option.any_eq_true _ _).mp hplay
  obtain ⟨c, hr, hcorr, rfl⟩ := Fmma.exists_reachable s hE hreset hinit (play_reaches hb)
  exact ⟨t, c, h', hr, hcorr, hP⟩

end Fmma
