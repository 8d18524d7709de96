import Mathlib.Logic.Function.Basic

/-!
# Accesses to a shared memory

The alphabet two parties share when all they have in common is one memory: a load of a
word or a store of one. Nothing here knows what the parties are.
-/

/-- One access to a memory with addresses `α` and words `β`. -/
inductive Access (α β : Type*)
  | load (a : α)
  | store (a : α) (v : β)
  deriving DecidableEq, Repr

namespace Access

variable {α β : Type*}

/-- What an access reads: a load reads its word, a store reads nothing of interest and is
given the old word. -/
def reads (m : α → β) : Access α β → β
  | .load a => m a
  | .store a _ => m a

/-- The word an access touches. -/
def addr : Access α β → α
  | .load a => a
  | .store a _ => a

@[simp] theorem reads_load (m : α → β) (a : α) : (load a : Access α β).reads m = m a := rfl

@[simp] theorem reads_store (m : α → β) (a : α) (v : β) : (store a v).reads m = m a := rfl

@[simp] theorem addr_load (a : α) : (load a : Access α β).addr = a := rfl

@[simp] theorem addr_store (a : α) (v : β) : (store a v).addr = a := rfl

variable [DecidableEq α]

/-- What an access leaves in the memory. -/
def apply (m : α → β) : Access α β → α → β
  | .load _ => m
  | .store a v => Function.update m a v

@[simp] theorem apply_load (m : α → β) (a : α) : (load a : Access α β).apply m = m := rfl

@[simp] theorem apply_store (m : α → β) (a : α) (v : β) :
    (store a v).apply m = Function.update m a v := rfl

/-- An optional access: an internal step touches nothing. -/
def applyOpt (m : α → β) (o : Option (Access α β)) : α → β :=
  o.elim m (apply m)

@[simp] theorem applyOpt_none (m : α → β) : applyOpt m none = m := rfl

@[simp] theorem applyOpt_some (m : α → β) (x : Access α β) : applyOpt m (some x) = x.apply m := rfl

/-- **Frame.** A word other than the one an access stores to is unchanged. -/
theorem apply_of_ne {m : α → β} {x : Access α β} {b : α} (h : ∀ a v, x = store a v → b ≠ a) :
    x.apply m b = m b := by
  cases x with
  | load a => rfl
  | store a v => exact Function.update_of_ne (h a v rfl) v m

end Access
