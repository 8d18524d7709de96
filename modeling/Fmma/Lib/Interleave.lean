import Fmma.Lib.Access
import Mathlib.Logic.Relation

/-!
# A machine and its environment around one memory

A `Machine` works on a memory that an environment (`Env`) also reads and writes; the steps of
the two interleave in any order, one access at a time. The environment carries a record of
the run: its own actions change the record, and it observes every access the machine makes,
with the place the machine makes it from. An environment may also refuse an access, which is
how a condition on the steps of a run is stated.

A machine `Simulates` another when it makes the same accesses, up to internal steps that
concern nobody. What every run of the simulated machine keeps, every run of the simulating one
keeps, in any environment (`Reachable.transfer`).
-/

/-- A machine working on a memory with addresses `α` and words `β`; `ι` names the places it
makes its accesses from. -/
structure Machine (ι α β σ : Type*) where
  /-- The memory, as part of the state. -/
  mem : σ → α → β
  /-- The state with another memory. -/
  setMem : σ → (α → β) → σ
  /-- One step. -/
  step : σ → σ → Prop
  /-- The access the next step makes, and from where. -/
  event : σ → Option (ι × Access α β)
  /-- An outside reset of the machine. -/
  reset : σ → σ → Prop

/-- An environment with a record of the run in `η`. -/
structure Env (ι α β η : Type*) where
  /-- An action: it sees the memory, makes at most one access, and changes the record. -/
  act : η → (α → β) → Option (Access α β) → η → Prop
  /-- What an access of the machine does to the record. -/
  observe : η → ι → Access α β → (α → β) → η
  /-- Whether an access of the machine is one the run may make. -/
  permits : η → ι → Access α β → (α → β) → Prop := fun _ _ _ _ => True
  /-- Whether the machine may be reset, and what that does to the record. -/
  reset : η → η → Prop := fun _ _ => False

namespace Env

variable {ι α β η : Type*}

/-- The environment's stores stay within a set of addresses. -/
def StoresWithin (E : Env ι α β η) (P : α → Prop) : Prop :=
  ∀ h m x h', E.act h m x h' → ∀ a v, x = some (.store a v) → P a

/-- The environment with a further condition on the accesses of the machine and on its own
actions. -/
def restrict (E : Env ι α β η) (okMachine : η → ι → Access α β → (α → β) → Prop)
    (okAct : η → (α → β) → Option (Access α β) → Prop) : Env ι α β η where
  act h m x h' := E.act h m x h' ∧ okAct h m x
  observe := E.observe
  permits h i x m := E.permits h i x m ∧ okMachine h i x m
  reset := E.reset

/-- The environment without resets. -/
def withoutReset (E : Env ι α β η) : Env ι α β η := { E with reset := fun _ _ => False }

end Env

namespace Machine

variable {ι α β σ τ η : Type*} [DecidableEq α]

/-- One step of a machine in its environment. -/
inductive Step (M : Machine ι α β σ) (E : Env ι α β η) : σ × η → σ × η → Prop
  | internal {a a' : σ} {h : η} (hs : M.step a a') (he : M.event a = none) :
    Step M E (a, h) (a', h)
  | access {a a' : σ} {h : η} {i : ι} {x : Access α β} (hs : M.step a a')
    (he : M.event a = some (i, x)) (hp : E.permits h i x (M.mem a)) :
    Step M E (a, h) (a', E.observe h i x (M.mem a))
  | act {a : σ} {h h' : η} {x : Option (Access α β)} (hx : E.act h (M.mem a) x h') :
    Step M E (a, h) (M.setMem a (Access.applyOpt (M.mem a) x), h')
  | reset {a a' : σ} {h h' : η} (hr : M.reset a a') (hh : E.reset h h') :
    Step M E (a, h) (a', h')

/-- The states a machine can reach in its environment. -/
def Reachable (M : Machine ι α β σ) (E : Env ι α β η) (init : σ × η → Prop) (b : σ × η) : Prop :=
  ∃ a, init a ∧ Relation.ReflTransGen (M.Step E) a b

variable {M : Machine ι α β σ} {N : Machine ι α β τ} {E : Env ι α β η} {init : σ × η → Prop}

/-- **Invariants.** What holds in the beginning and is kept by every step holds in every
reachable state. -/
theorem Reachable.invariant {I : σ × η → Prop} (hinit : ∀ a, init a → I a)
    (hstep : ∀ a b, I a → M.Step E a b → I b) {b : σ × η} (h : M.Reachable E init b) : I b := by
  obtain ⟨a, ha, hab⟩ := h
  induction hab with
  | refl => exact hinit a ha
  | tail _ hbc ih => exact hstep _ _ ih hbc

/-- A run can be continued. -/
theorem Reachable.tail {a b : σ × η} (h : M.Reachable E init a) (hab : M.Step E a b) :
    M.Reachable E init b := by
  obtain ⟨c, hc, hca⟩ := h
  exact ⟨c, hc, hca.tail hab⟩

/-- A condition on the steps only removes runs. -/
theorem Step.of_restrict {okMachine okAct} {a b : σ × η}
    (h : M.Step (E.restrict okMachine okAct) a b) : M.Step E a b := by
  cases h with
  | internal hs he => exact .internal hs he
  | access hs he hp => exact .access hs he hp.1
  | act hx => exact .act hx.1
  | reset hr hh => exact .reset hr hh

/-- Leaving out the resets only removes runs. -/
theorem Step.of_withoutReset {a b : σ × η} (h : M.Step E.withoutReset a b) : M.Step E a b := by
  cases h with
  | internal hs he => exact .internal hs he
  | access hs he hp => exact .access (E := E) hs he hp
  | act hx => exact .act (E := E) hx
  | reset _ hh => exact hh.elim

/-- More steps, more reachable states. -/
theorem Reachable.mono {E' : Env ι α β η} (hstep : ∀ a b, M.Step E a b → M.Step E' a b)
    {b : σ × η} (h : M.Reachable E init b) : M.Reachable E' init b := by
  obtain ⟨a, ha, hab⟩ := h
  exact ⟨a, ha, Relation.ReflTransGen.mono hstep _ _ hab⟩

/-- **Simulation.** Every step of `M` is a step of `N` with the same access, or an internal one
that `N` does not make. -/
structure Simulates (M : Machine ι α β σ) (N : Machine ι α β τ) (R : σ → τ → Prop)
    (P : α → Prop) : Prop where
  mem : ∀ {a b}, R a b → M.mem a = N.mem b
  store : ∀ {a b x}, R a b → (∀ c v, x = some (Access.store c v) → P c) →
    R (M.setMem a (Access.applyOpt (M.mem a) x)) (N.setMem b (Access.applyOpt (N.mem b) x))
  step : ∀ {a a' b}, R a b → M.step a a' →
    (M.event a = none ∧ R a' b) ∨ ∃ b', N.step b b' ∧ N.event b = M.event a ∧ R a' b'
  reset : ∀ {a a' b}, R a b → M.reset a a' → ∃ b', N.reset b b' ∧ R a' b'

/-- A step in an environment is matched by at most one step of the simulated machine in the
same environment. -/
theorem Simulates.step_env {R : σ → τ → Prop} {P : α → Prop} (hR : M.Simulates N R P)
    (hE : E.StoresWithin P) {a a' : σ × η} {b : τ} (h : M.Step E a a') (hab : R a.1 b) :
    (R a'.1 b ∧ a'.2 = a.2) ∨ ∃ b', R a'.1 b' ∧ N.Step E (b, a.2) (b', a'.2) := by
  cases h with
  | @internal a a' h hs he =>
    rcases hR.step hab hs with ⟨-, h'⟩ | ⟨b', hb, hev, h'⟩
    · exact .inl ⟨h', rfl⟩
    · exact .inr ⟨b', h', .internal hb (hev.trans he)⟩
  | @access a a' h i x hs he hp =>
    rcases hR.step hab hs with ⟨hnone, -⟩ | ⟨b', hb, hev, h'⟩
    · rw [hnone] at he
      cases he
    · rw [hR.mem hab] at hp ⊢
      exact .inr ⟨b', h', .access hb (hev.trans he) hp⟩
  | @act a h h' x hx =>
    refine .inr ⟨_, hR.store hab fun c v hc => hE _ _ _ _ hx c v hc, ?_⟩
    rw [hR.mem hab] at hx
    exact .act hx
  | @reset a a' h h' hr hh =>
    obtain ⟨b', hb, h''⟩ := hR.reset hab hr
    exact .inr ⟨b', h'', .reset hb hh⟩

/-- **Transfer.** What every step of the simulated machine keeps holds in every reachable state
of the simulating one, of a related state. -/
theorem Reachable.transfer {R : σ → τ → Prop} {P : α → Prop} (hR : M.Simulates N R P)
    (hE : E.StoresWithin P) {I : τ × η → Prop} (hinit : ∀ a, init a → ∃ b, R a.1 b ∧ I (b, a.2))
    (hstep : ∀ a b, I a → N.Step E a b → I b) {a : σ × η} (h : M.Reachable E init a) :
    ∃ b, R a.1 b ∧ I (b, a.2) := by
  refine h.invariant (I := fun a => ∃ b, R a.1 b ∧ I (b, a.2)) hinit ?_
  rintro a a' ⟨b, hab, hI⟩ hs
  rcases hR.step_env hE hs hab with ⟨h', heq⟩ | ⟨b', h', hb⟩
  · exact ⟨b, h', heq ▸ hI⟩
  · exact ⟨b', h', hstep _ _ hI hb⟩

/-- **Realisation**, the converse: every step of `N` is made by `M`, after internal steps. -/
structure Realises (M : Machine ι α β σ) (N : Machine ι α β τ) (R : σ → τ → Prop) : Prop where
  step : ∀ {a b b'}, R a b → N.step b b' → ∃ a₁ a₂,
    Relation.ReflTransGen (fun x y => M.step x y ∧ M.event x = none) a a₁ ∧ R a₁ b ∧
      M.step a₁ a₂ ∧ M.event a₁ = N.event b ∧ R a₂ b'

/-- Internal steps in an environment. -/
theorem Step.internals {a b : σ} (h : η)
    (hab : Relation.ReflTransGen (fun x y => M.step x y ∧ M.event x = none) a b) :
    Relation.ReflTransGen (M.Step E) (a, h) (b, h) := by
  induction hab with
  | refl => exact .refl
  | tail _ hs ih => exact ih.tail (.internal hs.1 hs.2)

/-- A step of the simulated machine in an environment that does not reset it is realised by a
run of the simulating one in the same environment. -/
theorem Simulates.realise_env {R : σ → τ → Prop} {P : α → Prop} (hR : M.Simulates N R P)
    (hN : M.Realises N R) (hE : E.StoresWithin P) (hreset : ∀ h h', ¬E.reset h h')
    {a : σ} {b b' : τ × η} (h : N.Step E b b') (hab : R a b.1) :
    ∃ a', R a' b'.1 ∧ Relation.ReflTransGen (M.Step E) (a, b.2) (a', b'.2) := by
  cases h with
  | @internal b b' h hs he =>
    obtain ⟨a₁, a₂, hint, -, hs', hev, h'⟩ := hN.step hab hs
    exact ⟨a₂, h', (Step.internals h hint).tail (.internal hs' (hev.trans he))⟩
  | @access b b' h i x hs he hp =>
    obtain ⟨a₁, a₂, hint, h₁, hs', hev, h'⟩ := hN.step hab hs
    rw [← hR.mem h₁] at hp ⊢
    exact ⟨a₂, h', (Step.internals h hint).tail (.access hs' (hev.trans he) hp)⟩
  | @act b h h' x hx =>
    refine ⟨_, hR.store hab fun c v hc => hE _ _ _ _ hx c v hc, .single ?_⟩
    rw [← hR.mem hab] at hx
    exact .act hx
  | @reset _ _ _ _ _ hh => exact absurd hh (hreset _ _)

/-- Runs of the simulated machine are runs of the simulating one. -/
theorem Simulates.realise_run {R : σ → τ → Prop} {P : α → Prop} (hR : M.Simulates N R P)
    (hN : M.Realises N R) (hE : E.StoresWithin P) (hreset : ∀ h h', ¬E.reset h h')
    {a : σ} {b b' : τ × η} (h : Relation.ReflTransGen (N.Step E) b b') (hab : R a b.1) :
    ∃ a', R a' b'.1 ∧ Relation.ReflTransGen (M.Step E) (a, b.2) (a', b'.2) := by
  induction h with
  | refl => exact ⟨a, hab, .refl⟩
  | tail _ hs ih =>
    obtain ⟨a₁, h₁, hrun⟩ := ih
    obtain ⟨a₂, h₂, hrun'⟩ := hR.realise_env hN hE hreset hs h₁
    exact ⟨a₂, h₂, hrun.trans hrun'⟩

end Machine
