import Mathlib.Data.List.Forall2

/-!
# Computations in step

Two computations that may fail are in step if both fail, or both return and what they return is
related. What they fail with is of no account.
-/

section InStep

universe u v

variable {ε δ : Type*} {α α' : Type u} {β β' : Type v} {R : α → β → Prop} {S : α' → β' → Prop}
  {x : Except ε α} {y : Except δ β}

/-- Both fail, or both return and the results are related. -/
inductive InStep (R : α → β → Prop) : Except ε α → Except δ β → Prop
  | ok {a : α} {b : β} (h : R a b) : InStep R (.ok a) (.ok b)
  | error {e : ε} {d : δ} : InStep R (.error e) (.error d)

namespace InStep

/-- **One after the other.** -/
theorem bind {f : α → Except ε α'} {g : β → Except δ β'} (h : InStep R x y)
    (hnext : ∀ a b, R a b → InStep S (f a) (g b)) : InStep S (x >>= f) (y >>= g) := by
  cases h with
  | ok hab => exact hnext _ _ hab
  | error => exact error

/-- What is related is what has been returned. -/
theorem returned (h : InStep R x y) : InStep (fun a b => x = .ok a ∧ R a b) x y := by
  cases h with
  | ok hab => exact ok ⟨rfl, hab⟩
  | error => exact error

/-- What one of them fails with may be changed. -/
theorem mapError {ε' : Type*} {f : ε → ε'} (h : InStep R x y) : InStep R (x.mapError f) y := by
  cases h with
  | ok hab => exact ok hab
  | error => exact error

/-- **Item by item.** -/
theorem mapM {γ γ' : Type*} {Q : γ → γ' → Prop} {f : γ → Except ε α} {g : γ' → Except δ β}
    {l : List γ} {l' : List γ'} (h : List.Forall₂ Q l l')
    (hitem : ∀ c c', Q c c' → InStep R (f c) (g c')) :
    InStep (List.Forall₂ R) (l.mapM f) (l'.mapM g) := by
  induction h with
  | nil => exact ok .nil
  | cons hhead _ ih =>
    rw [List.mapM_cons, List.mapM_cons]
    exact (hitem _ _ hhead).bind fun a b hab => ih.bind fun l l' hl => ok (.cons hab hl)

/-- Where the results determine each other, both return the same. -/
theorem exists_ok_iff {f : α → β} {b : β} (h : InStep (fun a b => f a = b) x y) :
    (∃ a, x = .ok a ∧ f a = b) ↔ y = .ok b := by
  cases h with
  | ok hab => simp [hab]
  | error => simp

end InStep

end InStep
