import Fmma.Lib.Interleave

/-!
# A machine and its environment on one clock

In hardware the two sides of a shared memory have one clock. In a cycle the machine makes a step or
none, on the memory as the cycle finds it, and the environment does what it does, with one store at
most. A run cycle by cycle is one of the interleavings, so what holds in every reachable state of
the machine holds after every cycle (`Reachable.tick`).
-/

namespace Env

variable {ι α β η : Type*} [DecidableEq α]

/-- An action that stores nothing. -/
def Silent (E : Env ι α β η) (m : α → β) (h h' : η) : Prop :=
  ∃ x, E.act h m x h' ∧ ∀ a v, x ≠ some (.store a v)

/-- The memory after the store of a cycle, if there is one. -/
def stored (w : Option (α × β)) (m : α → β) : α → β :=
  w.elim m fun x => Function.update m x.1 x.2

/-- What the environment does in a cycle on the memory it finds: silent actions, a store or none,
and silent actions again. -/
inductive Acts (E : Env ι α β η) (m : α → β) : Option (α × β) → η → η → Prop
  | quiet {h h' : η} (hsilent : Relation.ReflTransGen (E.Silent m) h h') : Acts E m none h h'
  | store {h h₁ h₂ h' : η} {a : α} {v : β} (hbefore : Relation.ReflTransGen (E.Silent m) h h₁)
    (hstore : E.act h₁ m (some (.store a v)) h₂)
    (hafter : Relation.ReflTransGen (E.Silent (Function.update m a v)) h₂ h') :
    Acts E m (some (a, v)) h h'

/-- A store of a cycle is one the environment may make. -/
theorem Acts.of_storesWithin {E : Env ι α β η} {P : α → Prop} (hE : E.StoresWithin P) {m : α → β}
    {w : Option (α × β)} {h h' : η} (hx : E.Acts m w h h') {a : α} {v : β} (hw : w = some (a, v)) :
    P a := by
  cases hx with
  | quiet hsilent => cases hw
  | store hbefore hstore hafter =>
    cases hw
    exact hE _ _ _ _ hstore _ _ rfl

end Env

namespace Machine

variable {ι α β σ η : Type*} [DecidableEq α]

/-- The memory of the state is what was last put there, and nothing else is changed by that. -/
structure Holds (M : Machine ι α β σ) : Prop where
  mem_setMem : ∀ a m, M.mem (M.setMem a m) = m
  setMem_mem : ∀ a, M.setMem a (M.mem a) = a

/-- What the machine does in a cycle, and what the record says of it. -/
inductive Moves (M : Machine ι α β σ) (E : Env ι α β η) (a : σ) (h : η) : σ → η → Prop
  | waits : Moves M E a h a h
  | internal {a' : σ} (hs : M.step a a') (he : M.event a = none) : Moves M E a h a' h
  | access {a' : σ} {i : ι} {x : Access α β} (hs : M.step a a') (he : M.event a = some (i, x))
    (hp : E.permits h i x (M.mem a)) : Moves M E a h a' (E.observe h i x (M.mem a))

/-- **A cycle.** What the environment loads in it, it loads before the machine's store or after. -/
def Tick (M : Machine ι α β σ) (E : Env ι α β η) (w : Option (α × β)) (b c : σ × η) : Prop :=
  ∃ h a h', Relation.ReflTransGen (E.Silent (M.mem b.1)) b.2 h ∧ M.Moves E b.1 h a h' ∧
    E.Acts (M.mem a) w h' c.2 ∧ c.1 = M.setMem a (Env.stored w (M.mem a))

variable {M : Machine ι α β σ} {E : Env ι α β η}

/-- Silent actions. -/
theorem Step.silent (hM : M.Holds) {a : σ} {h h' : η}
    (hx : Relation.ReflTransGen (E.Silent (M.mem a)) h h') :
    Relation.ReflTransGen (M.Step E) (a, h) (a, h') := by
  induction hx with
  | refl => exact .refl
  | tail _ hs ih =>
    obtain ⟨x, hx, hsilent⟩ := hs
    have hsame : Access.applyOpt (M.mem a) x = M.mem a := by
      cases x with
      | none => rfl
      | some x =>
        cases x with
        | load d => rfl
        | store d v => exact absurd rfl (hsilent d v)
    have hstep := Step.act hx
    rw [hsame, hM.setMem_mem] at hstep
    exact ih.tail hstep

/-- What the environment does in a cycle. -/
theorem Step.acts (hM : M.Holds) {a : σ} {h h' : η} {w : Option (α × β)}
    (hx : E.Acts (M.mem a) w h h') :
    Relation.ReflTransGen (M.Step E) (a, h) (M.setMem a (Env.stored w (M.mem a)), h') := by
  cases hx with
  | quiet hsilent =>
    have hsame : M.setMem a (Env.stored none (M.mem a)) = a := hM.setMem_mem a
    rw [hsame]
    exact Step.silent hM hsilent
  | @store _ h₁ h₂ _ d v hbefore hstore hafter =>
    have hact := Step.act (M := M) (a := a) hstore
    have hmem : M.mem (M.setMem a (Function.update (M.mem a) d v)) =
        Function.update (M.mem a) d v :=
      hM.mem_setMem _ _
    rw [← hmem] at hafter
    exact ((Step.silent hM hbefore).tail hact).trans (Step.silent hM hafter)

/-- **A cycle is a run.** -/
theorem Tick.run (hM : M.Holds) {w : Option (α × β)} {b c : σ × η} (h : M.Tick E w b c) :
    Relation.ReflTransGen (M.Step E) b c := by
  obtain ⟨b, g⟩ := b
  obtain ⟨c, g'⟩ := c
  obtain ⟨h, a, h', hsilent, hmoves, hacts, rfl⟩ := h
  have hmove : Relation.ReflTransGen (M.Step E) (b, h) (a, h') := by
    cases hmoves with
    | waits => exact .refl
    | internal hs he => exact .single (.internal hs he)
    | access hs he hp => exact .single (.access hs he hp)
  exact ((Step.silent hM hsilent).trans hmove).trans (Step.acts hM hacts)

/-- A run can be continued by a cycle. -/
theorem Reachable.tick (hM : M.Holds) {init : σ × η → Prop} {w : Option (α × β)} {b c : σ × η}
    (h : M.Reachable E init b) (hbc : M.Tick E w b c) : M.Reachable E init c := by
  obtain ⟨a, ha, hrun⟩ := h
  exact ⟨a, ha, hrun.trans (hbc.run hM)⟩

end Machine
