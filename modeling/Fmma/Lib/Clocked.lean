import Mathlib.Data.Nat.Notation
import Mathlib.Tactic.Common

/-!
# Clocked circuits

A synchronous circuit is a function from its registers and its inputs to its registers after the
next edge. It is driven by a stream of inputs, one for each edge.
-/

namespace Clocked

variable {σ ι : Type*}

/-- The registers after `n` edges. -/
def after (step : σ → ι → σ) (s : σ) (inp : ℕ → ι) : ℕ → σ
  | 0 => s
  | n + 1 => step (after step s inp n) (inp n)

variable {step : σ → ι → σ} {s : σ} {inp : ℕ → ι}

/-- What holds of the registers at the start, and is kept by every edge, holds after every edge. It
may also say what has been fed in so far. -/
theorem invariant {I : ℕ → σ → Prop} (hzero : I 0 s)
    (hstep : ∀ n s, I n s → I (n + 1) (step s (inp n))) (n : ℕ) : I n (after step s inp n) := by
  induction n with
  | zero => exact hzero
  | succ n ih => exact hstep n _ ih

/-! ### Valid bits -/

/-- A valid bit that follows another one by an edge, and is cleared by a reset. -/
def Trails (rst prev next : ℕ → Bool) : Prop :=
  ∀ n, next (n + 1) = if rst n then false else prev n

/-- After cycle `e` a bit is high just for what went in some cycles before. -/
def Behind (e delay : ℕ) (source bit : ℕ → Bool) : Prop :=
  ∀ n, e < n → bit n = true → ∃ m, e < m ∧ m + delay = n ∧ source m = true

/-- **Down a pipeline.** From a reset on nothing comes out that has not gone in since. -/
theorem Trails.behind {rst source prev next : ℕ → Bool} {e delay : ℕ} (h : Trails rst prev next)
    (hrst : rst e = true) (hprev : Behind e delay source prev) :
    Behind e (delay + 1) source next := by
  intro n hn hbit
  cases n with
  | zero => exact absurd hn (Nat.not_lt_zero e)
  | succ n =>
    rw [h n] at hbit
    split_ifs at hbit with hlow
    have hne : e ≠ n := by
      rintro rfl
      exact hlow hrst
    obtain ⟨m, hm, hdelay, hsource⟩ := hprev n (by omega) hbit
    exact ⟨m, hm, by omega, hsource⟩

/-! ### Registers that are written now and then -/

variable {β : Type*}

/-- What was last written before cycle `n`. -/
def latest (w : ℕ → Option β) : ℕ → Option β
  | 0 => none
  | n + 1 => (w n).or (latest w n)

theorem latest_map {γ : Type*} (f : β → γ) (w : ℕ → Option β) (n : ℕ) :
    latest (fun k => (w k).map f) n = (latest w n).map f := by
  induction n with
  | zero => rfl
  | succ n ih =>
    rw [latest, latest, ih]
    cases w n <;> rfl

/-- **A register keeps what was last written to it**, or what it held at the start. -/
theorem eq_latest {w : ℕ → Option β} {r : ℕ → β} (h : ∀ n, r (n + 1) = (w n).getD (r n)) (n : ℕ) :
    r n = (latest w n).getD (r 0) := by
  induction n with
  | zero => rfl
  | succ n ih =>
    rw [h, ih, latest]
    cases w n <;> rfl

end Clocked
