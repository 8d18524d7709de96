import Mathlib.Order.Bounds.Basic
import Mathlib.Data.List.Basic

/-!
# Priority encoders

A priority encoder is a loop over the bits of a word that remembers the last bit it finds set; it
runs upwards to find the highest, downwards to find the lowest. A wide word is searched in two
stages: first for the word, then in the word.
-/

namespace Priority

/-- `for k in 0 .. n - 1: if v k then r := k`, from `r = 0`. -/
def highest (n : ℕ) (v : ℕ → Bool) : ℕ := (List.range n).foldl (fun r k => if v k then k else r) 0

/-- `for k in n - 1 .. 0: if v k then r := k`, from `r = 0`. -/
def lowest (n : ℕ) (v : ℕ → Bool) : ℕ := (List.range n).foldr (fun k r => if v k then k else r) 0

variable {n m : ℕ} {v : ℕ → Bool}

/-- Some bit is set. -/
theorem any_range : (List.range n).any v = true ↔ ∃ k < n, v k = true := by
  simp only [List.any_eq_true, List.mem_range]

theorem highest_succ : highest (n + 1) v = if v n then n else highest n v := by
  simp only [highest, List.range_succ, List.foldl_append, List.foldl_cons, List.foldl_nil]

/-- The loops look at the first `n` bits only. -/
theorem highest_congr {u : ℕ → Bool} (h : ∀ k < n, v k = u k) : highest n v = highest n u := by
  refine List.foldl_ext _ _ 0 fun r k hk => ?_
  rw [h k (List.mem_range.mp hk)]

theorem lowest_congr {u : ℕ → Bool} (h : ∀ k < n, v k = u k) : lowest n v = lowest n u := by
  refine List.foldr_ext _ _ 0 fun k hk r => ?_
  rw [h k (List.mem_range.mp hk)]

theorem any_range_congr {u : ℕ → Bool} (h : ∀ k < n, v k = u k) :
    (List.range n).any v = (List.range n).any u := by
  rw [Bool.eq_iff_iff, any_range, any_range]
  constructor
  · rintro ⟨k, hk, hv⟩
    exact ⟨k, hk, h k hk ▸ hv⟩
  · rintro ⟨k, hk, hv⟩
    exact ⟨k, hk, (h k hk).trans hv⟩

/-- The loop upwards ends with the highest set bit. -/
theorem isGreatest_highest (h : ∃ k < n, v k = true) :
    IsGreatest {k | k < n ∧ v k = true} (highest n v) := by
  induction n with
  | zero =>
    obtain ⟨k, hk, -⟩ := h
    omega
  | succ n ih =>
    rw [highest_succ]
    split_ifs with hn
    · refine ⟨⟨Nat.lt_succ_self n, hn⟩, ?_⟩
      rintro k ⟨hk, -⟩
      omega
    · have hlt : ∀ k, k < n + 1 → v k = true → k < n := by
        intro k hk hv
        have hne : k ≠ n := by
          rintro rfl
          exact hn hv
        omega
      obtain ⟨k, hk, hv⟩ := h
      obtain ⟨⟨hlo, hset⟩, hup⟩ := ih ⟨k, hlt k hk hv, hv⟩
      refine ⟨⟨Nat.lt_succ_of_lt hlo, hset⟩, ?_⟩
      rintro j ⟨hj, hvj⟩
      exact hup ⟨hlt j hj hvj, hvj⟩

/-- The loop downwards, from any start. -/
theorem isLeast_foldr (r : ℕ) (h : ∃ k < n, v k = true) :
    IsLeast {k | k < n ∧ v k = true}
      ((List.range n).foldr (fun k r => if v k then k else r) r) := by
  induction n generalizing r with
  | zero =>
    obtain ⟨k, hk, -⟩ := h
    omega
  | succ n ih =>
    simp only [List.range_succ, List.foldr_append, List.foldr_cons, List.foldr_nil]
    by_cases hlow : ∃ k < n, v k = true
    · obtain ⟨⟨hlo, hset⟩, hdown⟩ := ih (if v n then n else r) hlow
      refine ⟨⟨Nat.lt_succ_of_lt hlo, hset⟩, ?_⟩
      rintro j ⟨hj, hvj⟩
      by_cases hjn : j = n
      · omega
      · exact hdown ⟨by omega, hvj⟩
    · have hn : v n = true := by
        obtain ⟨k, hk, hv⟩ := h
        by_cases hkn : k = n
        · exact hkn ▸ hv
        · exact absurd ⟨k, by omega, hv⟩ hlow
      have hskip : ∀ l : List ℕ, (∀ k ∈ l, v k = false) →
          l.foldr (fun k r => if v k then k else r) n = n := by
        intro l hl
        induction l with
        | nil => rfl
        | cons k l ihl =>
          rw [List.foldr_cons, hl k List.mem_cons_self,
            ihl fun j hj => hl j (List.mem_cons_of_mem k hj)]
          rfl
      rw [if_pos hn, hskip]
      · refine ⟨⟨Nat.lt_succ_self n, hn⟩, ?_⟩
        rintro j ⟨hj, hvj⟩
        by_contra hlt
        exact hlow ⟨j, by omega, hvj⟩
      · intro k hk
        rw [List.mem_range] at hk
        by_contra hv
        exact hlow ⟨k, hk, Bool.eq_true_of_not_eq_false hv⟩

/-- The loop downwards ends with the lowest set bit. -/
theorem isLeast_lowest (h : ∃ k < n, v k = true) :
    IsLeast {k | k < n ∧ v k = true} (lowest n v) :=
  isLeast_foldr 0 h

/-! ### Two stages -/

/-- Some bit of the word `w`, of `m` bits, is set. -/
def anyIn (m : ℕ) (v : ℕ → Bool) (w : ℕ) : Bool := (List.range m).any fun k => v (w * m + k)

theorem anyIn_eq_true {w : ℕ} : anyIn m v w = true ↔ ∃ k < m, v (w * m + k) = true := any_range

/-- A set bit is in a word with a set bit. -/
theorem anyIn_div {l : ℕ} (hm : 0 < m) (hv : v l = true) : anyIn m v (l / m) = true :=
  anyIn_eq_true.mpr ⟨l % m, Nat.mod_lt l hm, by rwa [Nat.div_add_mod']⟩

/-- Some word has a set bit just when some bit is set. -/
theorem exists_anyIn (hm : 0 < m) :
    (∃ w < n, anyIn m v w = true) ↔ ∃ l < n * m, v l = true := by
  constructor
  · rintro ⟨w, hw, h⟩
    obtain ⟨k, hk, hv⟩ := anyIn_eq_true.mp h
    refine ⟨w * m + k, ?_, hv⟩
    calc w * m + k < w * m + m := Nat.add_lt_add_left hk _
      _ = (w + 1) * m := (Nat.succ_mul w m).symm
      _ ≤ n * m := Nat.mul_le_mul_right m hw
  · rintro ⟨l, hl, hv⟩
    exact ⟨l / m, Nat.div_lt_of_lt_mul (Nat.mul_comm n m ▸ hl), anyIn_div hm hv⟩

/-- **The highest bit in two stages**: the highest in the highest word with a set bit. -/
theorem isGreatest_two_stages (hm : 0 < m) (h : ∃ l < n * m, v l = true) :
    IsGreatest {l | l < n * m ∧ v l = true}
      (highest n (anyIn m v) * m +
        highest m fun k => v (highest n (anyIn m v) * m + k)) := by
  obtain ⟨⟨hw, hany⟩, hup⟩ := isGreatest_highest ((exists_anyIn hm).mpr h)
  obtain ⟨⟨hk, hset⟩, hupk⟩ := isGreatest_highest (anyIn_eq_true.mp hany)
  set w := highest n (anyIn m v)
  refine ⟨⟨?_, hset⟩, ?_⟩
  · calc w * m + _ < w * m + m := Nat.add_lt_add_left hk _
      _ = (w + 1) * m := (Nat.succ_mul w m).symm
      _ ≤ n * m := Nat.mul_le_mul_right m hw
  · rintro l ⟨hl, hv⟩
    have hdiv : l / m ≤ w :=
      hup ⟨Nat.div_lt_of_lt_mul (Nat.mul_comm n m ▸ hl), anyIn_div hm hv⟩
    have hsplit : l / m * m + l % m = l := Nat.div_add_mod' l m
    rcases Nat.lt_or_eq_of_le hdiv with hlt | heq
    · have hle : (l / m + 1) * m ≤ w * m := Nat.mul_le_mul_right m hlt
      have hmod := Nat.mod_lt l hm
      rw [Nat.succ_mul] at hle
      omega
    · have hmod : l % m ≤ highest m fun k => v (w * m + k) :=
        hupk ⟨Nat.mod_lt l hm, by rwa [← heq, hsplit]⟩
      rw [heq] at hsplit
      omega

/-- **The lowest bit in two stages.** -/
theorem isLeast_two_stages (hm : 0 < m) (h : ∃ l < n * m, v l = true) :
    IsLeast {l | l < n * m ∧ v l = true}
      (lowest n (anyIn m v) * m +
        lowest m fun k => v (lowest n (anyIn m v) * m + k)) := by
  obtain ⟨⟨hw, hany⟩, hdown⟩ := isLeast_lowest ((exists_anyIn hm).mpr h)
  obtain ⟨⟨hk, hset⟩, hdownk⟩ := isLeast_lowest (anyIn_eq_true.mp hany)
  set w := lowest n (anyIn m v)
  refine ⟨⟨?_, hset⟩, ?_⟩
  · calc w * m + _ < w * m + m := Nat.add_lt_add_left hk _
      _ = (w + 1) * m := (Nat.succ_mul w m).symm
      _ ≤ n * m := Nat.mul_le_mul_right m hw
  · rintro l ⟨hl, hv⟩
    have hdiv : w ≤ l / m :=
      hdown ⟨Nat.div_lt_of_lt_mul (Nat.mul_comm n m ▸ hl), anyIn_div hm hv⟩
    have hsplit : l / m * m + l % m = l := Nat.div_add_mod' l m
    rcases Nat.lt_or_eq_of_le hdiv with hlt | heq
    · have hle : (w + 1) * m ≤ l / m * m := Nat.mul_le_mul_right m hlt
      rw [Nat.succ_mul] at hle
      omega
    · have hmod : lowest m (fun k => v (w * m + k)) ≤ l % m :=
        hdownk ⟨Nat.mod_lt l hm, by rwa [heq, hsplit]⟩
      rw [← heq] at hsplit
      omega

end Priority
