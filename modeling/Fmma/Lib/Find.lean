import Mathlib.Data.List.Basic

/-!
# The first occurrence of a pattern

`strstr` over an arbitrary alphabet: what follows the first occurrence of a pattern in a text, and
what becomes of it when the text is cut.
-/

namespace Find

variable {α : Type*} [DecidableEq α] {pat t v : List α}

/-- What follows the first occurrence of a pattern. -/
def after (pat : List α) : List α → Option (List α)
  | [] => if pat = [] then some [] else none
  | c :: t => if pat <+: c :: t then some ((c :: t).drop pat.length) else after pat t

theorem after_of_here {c : α} (h : pat <+: c :: t) :
    after pat (c :: t) = some ((c :: t).drop pat.length) := if_pos h

theorem after_of_elsewhere {c : α} (h : ¬pat <+: c :: t) : after pat (c :: t) = after pat t :=
  if_neg h

/-- A pattern is not found ahead of its first letter. -/
theorem after_append {d : α} {u : List α} (h : ∀ c ∈ u, c ≠ d) :
    after (d :: pat) (u ++ t) = after (d :: pat) t := by
  induction u with
  | nil => rfl
  | cons c u ih =>
    rw [List.cons_append, after_of_elsewhere]
    · exact ih fun x hx => h x (List.mem_cons_of_mem c hx)
    · intro hpre
      exact h c List.mem_cons_self (List.cons_prefix_cons.mp hpre).1.symm

theorem length_le_of_after (h : after pat t = some v) : v.length + pat.length ≤ t.length := by
  induction t with
  | nil =>
    simp only [after] at h
    split_ifs at h with hpat
    cases h
    subst hpat
    exact Nat.le_refl _
  | cons c t ih =>
    by_cases hpre : pat <+: c :: t
    · rw [after_of_here hpre, Option.some_inj] at h
      have hlen := hpre.length_le
      rw [← h, List.length_drop]
      omega
    · rw [after_of_elsewhere hpre] at h
      have hlen := ih h
      rw [List.length_cons]
      omega

/-- What is not found is not found in a part of the text that begins where it does. -/
theorem after_take_of_none (hpat : pat ≠ []) (n : ℕ) (h : after pat t = none) :
    after pat (t.take n) = none := by
  induction t generalizing n with
  | nil => rwa [List.take_nil]
  | cons c t ih =>
    have hpre : ¬pat <+: c :: t := by
      intro hpre
      rw [after_of_here hpre] at h
      cases h
    rw [after_of_elsewhere hpre] at h
    cases n with
    | zero => exact if_neg hpat
    | succ n =>
      rw [List.take_succ_cons, after_of_elsewhere]
      · exact ih n h
      · intro hcut
        refine hpre (hcut.trans ?_)
        rw [← List.take_succ_cons]
        exact List.take_prefix _ _

/-- **Looking in a text that has been cut.** The pattern is found when it ends before the cut, and
what follows it is cut where the text was. -/
theorem after_take (hpat : pat ≠ []) (n : ℕ) (h : after pat t = some v) :
    after pat (t.take n) =
      if t.length ≤ n + v.length then some (v.take (n + v.length - t.length)) else none := by
  induction t generalizing n with
  | nil =>
    simp only [after, if_neg hpat] at h
    cases h
  | cons c t ih =>
    by_cases hpre : pat <+: c :: t
    · rw [after_of_here hpre, Option.some_inj] at h
      have hlen := hpre.length_le
      have hv : v.length + pat.length = (c :: t).length := by
        rw [← h, List.length_drop]
        omega
      by_cases hn : pat.length ≤ n
      · have hcut : pat <+: (c :: t).take n := by
          rw [List.prefix_take_iff]
          exact ⟨hpre, hn⟩
        obtain ⟨d, u, hdu⟩ : ∃ d u, (c :: t).take n = d :: u := by
          cases hu : (c :: t).take n with
          | nil =>
            rw [hu, List.prefix_nil] at hcut
            exact absurd hcut hpat
          | cons d u => exact ⟨d, u, rfl⟩
        rw [hdu] at hcut ⊢
        rw [after_of_here hcut, ← hdu, List.drop_take, h, if_pos (by omega)]
        congr 2
        omega
      · rw [if_neg (by omega)]
        refine Option.eq_none_iff_forall_ne_some.mpr fun w hw => ?_
        have hle := length_le_of_after hw
        rw [List.length_take] at hle
        omega
    · rw [after_of_elsewhere hpre] at h
      have hle := length_le_of_after h
      cases n with
      | zero =>
        rw [if_neg, List.take_zero]
        · exact if_neg hpat
        · rw [List.length_cons]
          omega
      | succ n =>
        rw [List.take_succ_cons, after_of_elsewhere]
        · rw [ih n h, List.length_cons]
          simp only [Nat.add_right_comm n 1, Nat.add_le_add_iff_right, Nat.add_sub_add_right]
        · intro hcut
          refine hpre (hcut.trans ?_)
          rw [← List.take_succ_cons]
          exact List.take_prefix _ _

end Find
