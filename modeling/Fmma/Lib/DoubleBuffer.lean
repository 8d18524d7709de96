import Mathlib.Data.List.DropRight
import Mathlib.Logic.Function.Basic

/-!
# Double buffers

A table in two copies. Readers see the live copy, and writers fill the inactive one entry by entry.
A swap exchanges them at once, so that no reader sees a table that is half written. What becomes
live then is what was written since the last swap, over what that copy held when it was last made
inactive.
-/

/-- A table over `ι` in two copies. -/
@[ext]
structure DoubleBuffer (ι α : Type*) where
  live : ι → α
  inactive : ι → α

namespace DoubleBuffer

/-- What is done to it. -/
inductive Op (ι α : Type*)
  | write (k : ι) (v : α)
  | swap
  deriving DecidableEq

variable {ι α : Type*} [DecidableEq ι]

namespace Op

def isWrite : Op ι α → Bool
  | write .. => true
  | swap => false

/-- What is written to an entry. -/
def valueAt (k : ι) : Op ι α → Option α
  | write j v => if j = k then some v else none
  | swap => none

end Op

/-- One operation. -/
def apply (d : DoubleBuffer ι α) : Op ι α → DoubleBuffer ι α
  | .write k v => { d with inactive := Function.update d.inactive k v }
  | .swap => ⟨d.inactive, d.live⟩

/-- Some operations, the first one first. -/
def run (d : DoubleBuffer ι α) (l : List (Op ι α)) : DoubleBuffer ι α := l.foldl apply d

/-- The writes since the last swap. -/
def sinceSwap (l : List (Op ι α)) : List (Op ι α) := l.rtakeWhile Op.isWrite

/-- The operations up to the last swap. -/
def uptoSwap (l : List (Op ι α)) : List (Op ι α) := l.rdropWhile Op.isWrite

/-- The last value that is written to an entry. -/
def lastWritten (k : ι) (l : List (Op ι α)) : Option α := l.reverse.findSome? (Op.valueAt k)

variable {d : DoubleBuffer ι α} {o : Op ι α} {l m : List (Op ι α)} {k : ι} {v : α}

theorem run_append : run d (l ++ m) = run (run d l) m := List.foldl_append

theorem run_concat : run d (l ++ [o]) = (run d l).apply o := List.foldl_concat ..

theorem lastWritten_concat :
    lastWritten k (l ++ [o]) = (Op.valueAt k o).or (lastWritten k l) := by
  rw [lastWritten, List.reverse_append, List.reverse_singleton, List.singleton_append,
    List.findSome?_cons]
  cases Op.valueAt k o <;> rfl

/-- **Only a swap changes the live copy.** -/
theorem live_apply (h : o ≠ .swap) : (d.apply o).live = d.live := by
  cases o with
  | write => rfl
  | swap => exact absurd rfl h

/-- What an operation does to an entry of the inactive copy, other than a swap. -/
theorem inactive_apply (h : o ≠ .swap) :
    (d.apply o).inactive k = (Op.valueAt k o).getD (d.inactive k) := by
  cases o with
  | swap => exact absurd rfl h
  | write j v =>
    by_cases hj : j = k
    · rw [hj]
      simp [apply, Op.valueAt]
    · simp [apply, Op.valueAt, hj, Ne.symm hj]

/-- Writes fill the inactive copy, and the last one to an entry counts. -/
theorem inactive_run_of_writes (h : ∀ o ∈ l, o ≠ .swap) :
    (run d l).inactive k = (lastWritten k l).getD (d.inactive k) := by
  induction l using List.reverseRecOn with
  | nil => rfl
  | append_singleton l o ih =>
    have ho : o ≠ .swap := h o (List.mem_append_right l List.mem_cons_self)
    rw [run_concat, inactive_apply ho, lastWritten_concat,
      ih fun o' ho' => h o' (List.mem_append_left _ ho')]
    cases Op.valueAt k o <;> rfl

/-- **The inactive copy** has what was written since the last swap, over what it held then. -/
theorem inactive_run : (run d l).inactive k =
    (lastWritten k (sinceSwap l)).getD ((run d (uptoSwap l)).inactive k) := by
  have hsplit : l = uptoSwap l ++ sinceSwap l := (List.rdropWhile_append_rtakeWhile ..).symm
  have hwrites : ∀ o ∈ sinceSwap l, o ≠ .swap := by
    rintro o ho rfl
    have hwrite : Op.isWrite (.swap : Op ι α) = true := List.mem_rtakeWhile_imp ho
    cases hwrite
  conv_lhs => rw [hsplit, run_append]
  exact inactive_run_of_writes hwrites

/-- **A swap is atomic**: each entry becomes live with the last value that was written since the
last swap, or else as it was. -/
theorem live_run_swap : (run d (l ++ [.swap])).live k =
    (lastWritten k (sinceSwap l)).getD ((run d (uptoSwap l)).inactive k) := by
  rw [run_concat]
  exact inactive_run

end DoubleBuffer
