import Mathlib.Data.List.Infix

/-!
# Runs of an event-driven machine

A machine that is driven from outside: `step a e` is the state after the event `e` in the state
`a`. A run is a list of events. `Always` is what holds all along a run, `Each` is a condition on
the events, each in the state it finds.
-/

namespace Trace

variable {σ ε : Type*}

/-- The state at the end of a run. -/
def run (step : σ → ε → σ) (a : σ) (l : List ε) : σ := l.foldl step a

/-- `P` holds before, between and after the events of a run. -/
def Always (step : σ → ε → σ) (P : σ → Prop) (a : σ) (l : List ε) : Prop :=
  ∀ p, p <+: l → P (run step a p)

/-- Every event of a run is as `C` says, in the state it finds. -/
def Each (step : σ → ε → σ) (C : σ → ε → Prop) (a : σ) (l : List ε) : Prop :=
  ∀ p e, p ++ [e] <+: l → C (run step a p) e

variable {step : σ → ε → σ} {P I : σ → Prop} {C : σ → ε → Prop} {a : σ} {e : ε} {l : List ε}

@[simp]
theorem run_nil : run step a [] = a := rfl

@[simp]
theorem run_cons : run step a (e :: l) = run step (step a e) l := rfl

@[simp]
theorem always_nil : Always step P a [] ↔ P a := by
  constructor
  · intro h
    exact h [] List.prefix_rfl
  · intro h p hp
    rw [List.prefix_nil.mp hp]
    exact h

theorem always_cons : Always step P a (e :: l) ↔ P a ∧ Always step P (step a e) l := by
  constructor
  · intro h
    exact ⟨h [] List.nil_prefix, fun p hp => h (e :: p) (List.cons_prefix_cons.mpr ⟨rfl, hp⟩)⟩
  · intro h p hp
    cases p with
    | nil => exact h.1
    | cons d p =>
      obtain ⟨rfl, hp'⟩ := List.cons_prefix_cons.mp hp
      exact h.2 p hp'

@[simp]
theorem each_nil : Each step C a [] := by
  intro p e hp
  exact absurd (List.prefix_nil.mp hp)
    (List.append_ne_nil_of_right_ne_nil p (List.cons_ne_nil e []))

theorem each_cons : Each step C a (e :: l) ↔ C a e ∧ Each step C (step a e) l := by
  constructor
  · intro h
    refine ⟨h [] e (List.cons_prefix_cons.mpr ⟨rfl, List.nil_prefix⟩), fun p d hp => ?_⟩
    exact h (e :: p) d (List.cons_prefix_cons.mpr ⟨rfl, hp⟩)
  · intro h p d hp
    cases p with
    | nil =>
      obtain ⟨rfl, -⟩ := List.cons_prefix_cons.mp hp
      exact h.1
    | cons c p =>
      obtain ⟨rfl, hp'⟩ := List.cons_prefix_cons.mp hp
      exact h.2 p d hp'

theorem each_congr {D : σ → ε → Prop} (h : ∀ a e, C a e ↔ D a e) :
    Each step C a l ↔ Each step D a l :=
  forall_congr' fun _ => forall_congr' fun _ => imp_congr_right fun _ => h _ _

/-- Conditions that agree under an invariant agree along a run. -/
theorem each_congr_of {D : σ → ε → Prop} (hI : ∀ a e, I a → I (step a e))
    (h : ∀ a e, I a → (C a e ↔ D a e)) (ha : I a) : Each step C a l ↔ Each step D a l := by
  induction l generalizing a with
  | nil => exact iff_of_true each_nil each_nil
  | cons e l ih => rw [each_cons, each_cons, h a e ha, ih (hI a e ha)]

/-- **The step rule under a condition.** What holds at the start, and is kept by every event that is
as `C` says, holds all along a run of such events. -/
theorem always_of_each (hstep : ∀ a e, I a → C a e → I (step a e)) (ha : I a)
    (h : Each step C a l) : Always step I a l := by
  induction l generalizing a with
  | nil => exact always_nil.mpr ha
  | cons e l ih =>
    obtain ⟨he, hl⟩ := each_cons.mp h
    exact always_cons.mpr ⟨ha, ih (hstep a e ha he) hl⟩

/-- **The step rule.** -/
theorem always_of_step (hstep : ∀ a e, I a → I (step a e)) (ha : I a) : Always step I a l :=
  always_of_each (C := fun _ _ => True) (fun a e h _ => hstep a e h) ha fun _ _ _ => trivial

theorem Always.imp {Q : σ → Prop} (h : Always step P a l) (hPQ : ∀ a, P a → Q a) :
    Always step Q a l := fun p hp => hPQ _ (h p hp)

/-- **The step rule for an exact condition.** If, under an invariant `I` that the events of `C`
keep, an event leads to `P` just when it is as `C` says, then `P` holds all along a run just when
each event is as `C` says. -/
theorem always_iff_each_of (hI : ∀ a e, I a → C a e → I (step a e))
    (hstep : ∀ a e, I a → (P (step a e) ↔ C a e)) (ha : I a) (hP : P a) :
    Always step P a l ↔ Each step C a l := by
  induction l generalizing a with
  | nil =>
    rw [always_nil]
    exact ⟨fun _ => each_nil, fun _ => hP⟩
  | cons e l ih =>
    rw [always_cons, each_cons]
    constructor
    · rintro ⟨-, h⟩
      have hnext : P (step a e) := h [] List.nil_prefix
      have hC := (hstep a e ha).mp hnext
      exact ⟨hC, (ih (hI a e ha hC) hnext).mp h⟩
    · rintro ⟨hC, h⟩
      have hnext : P (step a e) := (hstep a e ha).mpr hC
      exact ⟨hP, (ih (hI a e ha hC) hnext).mpr h⟩

/-- The same, where the condition is about events that find `P`. -/
theorem always_iff_each (hI : ∀ a e, I a → I (step a e))
    (hstep : ∀ a e, I a → P a → (P (step a e) ↔ C a e)) (ha : I a) (hP : P a) :
    Always step P a l ↔ Each step C a l := by
  refine always_iff_each_of (I := fun a => I a ∧ P a) ?_ (fun a e h => hstep a e h.1 h.2)
    ⟨ha, hP⟩ hP
  rintro a e ⟨ha, hP⟩ hC
  exact ⟨hI a e ha, (hstep a e ha hP).mpr hC⟩

theorem always_and {Q : σ → Prop} :
    Always step (fun a => P a ∧ Q a) a l ↔ Always step P a l ∧ Always step Q a l := by
  constructor
  · intro h
    exact ⟨fun p hp => (h p hp).1, fun p hp => (h p hp).2⟩
  · rintro ⟨hP, hQ⟩ p hp
    exact ⟨hP p hp, hQ p hp⟩

end Trace
