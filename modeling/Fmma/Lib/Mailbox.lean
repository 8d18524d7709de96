import Mathlib.Logic.Function.Basic
import Mathlib.Tactic.SplitIfs

/-!
# Records in a shared memory

A party that stores one word after the other posts a record when it makes a store that rings. What
the record says is read off the memory at that moment. Nothing here knows what the party is.
-/

namespace Mailbox

variable {α β γ : Type*} [DecidableEq α]

/-- The memory after some stores, made in the order of the list. -/
def stored (m : α → β) : List (α × β) → α → β
  | [] => m
  | x :: l => stored (Function.update m x.1 x.2) l

/-- The records that are posted: what is read at each store that rings. -/
def posted (rings : α × β → Bool) (read : (α → β) → γ) (m : α → β) : List (α × β) → List γ
  | [] => []
  | x :: l =>
    if rings x then
      read (Function.update m x.1 x.2) :: posted rings read (Function.update m x.1 x.2) l
    else posted rings read (Function.update m x.1 x.2) l

variable {rings : α × β → Bool} {read : (α → β) → γ} {m : α → β} {l : List (α × β)}

/-- **One call after another.** What is posted goes on where the first stores have left the
memory. -/
theorem posted_append (l l' : List (α × β)) : posted rings read m (l ++ l') =
    posted rings read m l ++ posted rings read (stored m l) l' := by
  induction l generalizing m with
  | nil => rfl
  | cons x l ih =>
    rw [List.cons_append, posted, posted, stored, ih]
    split_ifs
    · rfl
    · rfl

/-- Stores that do not ring post nothing. -/
theorem posted_of_silent (h : ∀ x ∈ l, rings x = false) : posted rings read m l = [] := by
  induction l generalizing m with
  | nil => rfl
  | cons x l ih =>
    have hsilent : ¬rings x = true := Bool.eq_false_iff.mp (h x List.mem_cons_self)
    rw [posted, if_neg hsilent]
    exact ih fun y hy => h y (List.mem_cons_of_mem x hy)

end Mailbox
