import Mathlib.Data.Fin.Basic
import Mathlib.Data.List.Induction
import Mathlib.Data.Nat.Log
import Mathlib.Tactic.Ring

/-!
# Numerals

Rows of digits in a base, the highest digit first: what number a row stands for, and the row of a
number. `gather` is an accumulator that takes no more digits once it has reached a power of the
base; what it ends up with are the leading digits of the number.
-/

namespace Numeral

variable {b : ℕ}

/-! ### The number of a row -/

/-- The number a row of digits stands for. -/
def value (ds : List (Fin b)) : ℕ := ds.foldl (fun (n : ℕ) (d : Fin b) => n * b + d.val) 0

@[simp]
theorem value_nil : value ([] : List (Fin b)) = 0 := rfl

theorem value_snoc (ds : List (Fin b)) (d : Fin b) : value (ds ++ [d]) = value ds * b + d := by
  rw [value, List.foldl_append]
  rfl

theorem value_append (v w : List (Fin b)) :
    value (v ++ w) = value v * b ^ w.length + value w := by
  induction w using List.reverseRecOn with
  | nil => simp
  | append_singleton w d ih =>
    rw [← List.append_assoc, value_snoc, value_snoc, ih, List.length_append, List.length_singleton,
      Nat.pow_succ]
    ring

theorem value_lt (ds : List (Fin b)) : value ds < b ^ ds.length := by
  induction ds using List.reverseRecOn with
  | nil => exact Nat.one_pos
  | append_singleton ds d ih =>
    have hd := d.isLt
    have hle : (value ds + 1) * b ≤ b ^ ds.length * b := Nat.mul_le_mul_right b ih
    rw [value_snoc, List.length_append, List.length_singleton, Nat.pow_succ]
    rw [Nat.add_mul, Nat.one_mul] at hle
    omega

theorem value_cons (d : Fin b) (ds : List (Fin b)) :
    value (d :: ds) = d * b ^ ds.length + value ds := by
  have hone : value [d] = d := by simp [value]
  rw [← hone]
  exact value_append [d] ds

/-- The first digits are the number without the others. -/
theorem value_take (ds : List (Fin b)) (k : ℕ) :
    value (ds.take k) = value ds / b ^ (ds.length - k) := by
  have hsplit := value_append (ds.take k) (ds.drop k)
  have hlt := value_lt (ds.drop k)
  rw [List.take_append_drop, List.length_drop] at hsplit
  rw [List.length_drop] at hlt
  have hpos : 0 < b ^ (ds.length - k) := (Nat.zero_le _).trans_lt hlt
  rw [hsplit, Nat.add_comm, Nat.add_mul_div_right _ _ hpos, Nat.div_eq_of_lt hlt, Nat.zero_add]

/-! ### The row of a number -/

section Row

variable [NeZero b]

/-- The last `k` digits of a number. -/
def row : ℕ → ℕ → List (Fin b)
  | 0, _ => []
  | k + 1, n => row k (n / b) ++ [Fin.ofNat b n]

@[simp]
theorem length_row (k n : ℕ) : (row k n : List (Fin b)).length = k := by
  induction k generalizing n with
  | zero => rfl
  | succ k ih => rw [row, List.length_append, ih, List.length_singleton]

theorem value_row (k n : ℕ) : value (row k n : List (Fin b)) = n % b ^ k := by
  induction k generalizing n with
  | zero => rw [row, value_nil, Nat.pow_zero, Nat.mod_one]
  | succ k ih =>
    rw [row, value_snoc, ih, Nat.pow_succ, Nat.mul_comm (b ^ k) b, Nat.mod_mul]
    change n / b % b ^ k * b + n % b = n % b + b * (n / b % b ^ k)
    ring

/-- Every row is the row of its number. -/
theorem row_value (ds : List (Fin b)) : row ds.length (value ds) = ds := by
  induction ds using List.reverseRecOn with
  | nil => rfl
  | append_singleton ds d ih =>
    have hdiv : (value ds * b + d) / b = value ds := by
      rw [Nat.add_comm, Nat.add_mul_div_right _ _ (NeZero.pos b), Nat.div_eq_of_lt d.isLt,
        Nat.zero_add]
    have hmod : Fin.ofNat b (value ds * b + d) = d := by
      refine Fin.ext ?_
      change (value ds * b + d) % b = d
      rw [Nat.add_comm, Nat.add_mul_mod_self_right, Nat.mod_eq_of_lt d.isLt]
    rw [List.length_append, List.length_singleton, row, value_snoc, hdiv, hmod, ih]

end Row

/-! ### How long a row is -/

/-- How many digits a number has: zero has one. -/
def width (b n : ℕ) : ℕ := Nat.log b n + 1

theorem lt_pow_width (hb : 1 < b) (n : ℕ) : n < b ^ width b n := Nat.lt_pow_succ_log_self hb n

/-- A number with few digits is small. -/
theorem width_le_iff (hb : 1 < b) {n k : ℕ} (hk : 0 < k) : width b n ≤ k ↔ n < b ^ k := by
  constructor
  · intro h
    exact (lt_pow_width hb n).trans_le (Nat.pow_le_pow_right hb.le h)
  · intro h
    rcases Nat.eq_zero_or_pos n with rfl | hn
    · rwa [width, Nat.log_zero_right]
    · exact Nat.log_lt_of_lt_pow hn.ne' h

/-- A row that does not begin with a superfluous zero has as many digits as its number. -/
theorem width_value (hb : 1 < b) {d : Fin b} {ds : List (Fin b)} (h : ds = [] ∨ d.val ≠ 0) :
    width b (value (d :: ds)) = ds.length + 1 := by
  refine le_antisymm ((width_le_iff hb ds.length.succ_pos).mpr (value_lt (d :: ds))) ?_
  rcases h with rfl | hd
  · exact Nat.le_add_left 1 _
  · have hpos : 0 < d.val := Nat.pos_of_ne_zero hd
    refine Nat.succ_le_succ (Nat.le_log_of_pow_le hb ?_)
    rw [value_cons]
    exact (Nat.le_mul_of_pos_left _ hpos).trans (Nat.le_add_right _ _)

section Row

variable [NeZero b]

theorem value_row_width (hb : 1 < b) (n : ℕ) :
    value (row (width b n) n : List (Fin b)) = n := by
  rw [value_row, Nat.mod_eq_of_lt (lt_pow_width hb n)]

/-- The row of a number that is not zero begins with no zero. -/
theorem exists_row_width (hb : 1 < b) {n : ℕ} (hn : n ≠ 0) :
    ∃ (d : Fin b) (ds : List (Fin b)), row (width b n) n = d :: ds ∧ d.val ≠ 0 := by
  have hlength := length_row (b := b) (width b n) n
  obtain ⟨d, ds, hrow⟩ := List.exists_cons_of_length_eq_add_one (hlength.trans rfl)
  refine ⟨d, ds, hrow, ?_⟩
  intro hd
  rw [hrow, List.length_cons, width] at hlength
  have hvalue := value_row_width hb n
  rw [hrow, value_cons, hd, Nat.zero_mul, Nat.zero_add] at hvalue
  have hlt := value_lt ds
  rw [hvalue, Nat.succ_injective hlength] at hlt
  exact absurd (Nat.pow_log_le_self b hn) (not_le.mpr hlt)

end Row

/-! ### Leading digits -/

/-- An accumulator that takes no more digits once it has reached the limit. -/
def gather (limit : ℕ) (ds : List (Fin b)) : ℕ :=
  ds.foldl (fun (n : ℕ) (d : Fin b) => if n < limit then n * b + d.val else n) 0

theorem gather_snoc (limit : ℕ) (ds : List (Fin b)) (d : Fin b) : gather limit (ds ++ [d]) =
    if gather limit ds < limit then gather limit ds * b + d else gather limit ds := by
  rw [gather, List.foldl_append]
  rfl

/-- The leading `k + 1` digits of a number, or all it has. -/
def lead (b k n : ℕ) : ℕ := n / b ^ (Nat.log b n - k)

theorem lead_eq_self (hb : 1 < b) {k n : ℕ} (h : n < b ^ (k + 1)) : lead b k n = n := by
  have hlog : Nat.log b n ≤ k := by
    have hwidth := (width_le_iff hb k.succ_pos).mpr h
    exact Nat.le_of_succ_le_succ hwidth
  rw [lead, Nat.sub_eq_zero_of_le hlog, Nat.pow_zero, Nat.div_one]

theorem lead_lt (hb : 1 < b) (k n : ℕ) : lead b k n < b ^ (k + 1) := by
  rcases Nat.lt_or_ge n (b ^ (k + 1)) with h | h
  · rwa [lead_eq_self hb h]
  · have hlog : k + 1 ≤ Nat.log b n := Nat.le_log_of_pow_le hb h
    have hexp : k + 1 + (Nat.log b n - k) = Nat.log b n + 1 := by omega
    rw [lead, Nat.div_lt_iff_lt_mul (Nat.pow_pos (by omega)), ← Nat.pow_add, hexp]
    exact Nat.lt_pow_succ_log_self hb n

/-- A number with more digits than the leading ones is not small, and they are not. -/
theorem pow_le_lead (hb : 1 < b) {k n : ℕ} (h : b ^ k ≤ n) : b ^ k ≤ lead b k n := by
  have hn : n ≠ 0 := by
    have hpos := Nat.pow_pos (n := k) (by omega : 0 < b)
    omega
  have hlog : k ≤ Nat.log b n := Nat.le_log_of_pow_le hb h
  rw [lead, Nat.le_div_iff_mul_le (Nat.pow_pos (by omega)), ← Nat.pow_add,
    Nat.add_sub_cancel' hlog]
  exact Nat.pow_log_le_self b hn

theorem lead_snoc (hb : 1 < b) {k n : ℕ} (d : Fin b) (h : b ^ k ≤ n) :
    lead b k (n * b + d) = lead b k n := by
  have hd := d.isLt
  have hdiv : (n * b + d) / b = n := by
    rw [Nat.add_comm, Nat.add_mul_div_right _ _ (by omega), Nat.div_eq_of_lt hd, Nat.zero_add]
  have hpos := Nat.pow_pos (n := k) (by omega : 0 < b)
  have hbig : b ≤ n * b + d := by
    have hle : 1 * b ≤ n * b := Nat.mul_le_mul_right b (by omega)
    omega
  have hlog : k ≤ Nat.log b n := Nat.le_log_of_pow_le hb h
  have hexp : Nat.log b (n * b + d) - k = Nat.log b n - k + 1 := by
    rw [Nat.log_of_one_lt_of_le hb hbig, hdiv]
    omega
  rw [lead, lead, hexp, Nat.pow_succ, Nat.mul_comm (b ^ _) b, ← Nat.div_div_eq_div_mul, hdiv]

/-- **The accumulator** ends up with the leading digits. -/
theorem gather_eq_lead (hb : 1 < b) (k : ℕ) (ds : List (Fin b)) :
    gather (b ^ k) ds = lead b k (value ds) := by
  induction ds using List.reverseRecOn with
  | nil => exact (Nat.zero_div _).symm
  | append_singleton ds d ih =>
    have hd := d.isLt
    rw [gather_snoc, value_snoc, ih]
    by_cases h : value ds < b ^ k
    · have hsmall : value ds < b ^ (k + 1) :=
        h.trans_le (Nat.pow_le_pow_right hb.le k.le_succ)
      have hnext : value ds * b + d < b ^ (k + 1) := by
        have hle : (value ds + 1) * b ≤ b ^ k * b := Nat.mul_le_mul_right b h
        rw [Nat.pow_succ]
        rw [Nat.add_mul, Nat.one_mul] at hle
        omega
      rw [lead_eq_self hb hsmall, if_pos h, lead_eq_self hb hnext]
    · have hge := not_lt.mp h
      rw [if_neg (not_lt.mpr (pow_le_lead hb hge)), lead_snoc hb d hge]

end Numeral
