import Mathlib.Logic.Relation

/-!
# Settling a machine between its observable states

A machine alternates between *observable* states, in which it touches something it shares
with others, and stretches of *quiet* steps, which concern nobody else. `Leads quiet Q s` says
that the quiet steps from `s` end in an observable state with the property `Q`. It is the
weakest-precondition reading of such a stretch: a proof of `Leads` is a symbolic execution,
one constructor for each step.

The quiet steps are given by a partial function, so a state has at most one quiet successor;
`none` marks an observable state.
-/

universe u

variable {σ : Type u}

/-- The quiet steps from a state end in an observable state with the property `Q`. -/
inductive Leads (quiet : σ → Option σ) (Q : σ → Prop) : σ → Prop
  | stop {s : σ} (h : quiet s = none) (hQ : Q s) : Leads quiet Q s
  | step {s s' : σ} (h : quiet s = some s') (hL : Leads quiet Q s') : Leads quiet Q s

namespace Leads

variable {quiet : σ → Option σ} {Q R : σ → Prop} {s s' : σ}

/-- An observable state is where the stretch ends. -/
theorem of_stop (h : Leads quiet Q s) (hs : quiet s = none) : Q s := by
  cases h with
  | stop _ hQ => exact hQ
  | step h' _ => rw [hs] at h'; cases h'

/-- A quiet step stays on the stretch. -/
theorem of_step (h : Leads quiet Q s) (hs : quiet s = some s') : Leads quiet Q s' := by
  cases h with
  | stop h' _ => rw [hs] at h'; cases h'
  | step h' hL => rw [hs] at h'; cases h'; exact hL

/-- What the quiet steps preserve and the end of the stretch has, holds all along it. -/
theorem invariant (h : Leads quiet Q s) {P : σ → Prop}
    (hback : ∀ s s', quiet s = some s' → P s' → P s) (hQ : ∀ a, Q a → P a) : P s := by
  induction h with
  | stop _ hQa => exact hQ _ hQa
  | step h _ ih => exact hback _ _ h ih

/-- **Frame.** A projection that no quiet step changes has at the start the value it has at
the end. -/
theorem frame {τ : Type*} (h : Leads quiet Q s) {f : σ → τ} {x : τ}
    (hf : ∀ s s', quiet s = some s' → f s' = f s) (hQ : ∀ a, Q a → f a = x) : f s = x :=
  h.invariant (P := fun s => f s = x) (fun _ _ hs hx => (hf _ _ hs).symm.trans hx) hQ

end Leads
