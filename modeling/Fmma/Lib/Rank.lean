import Mathlib.Data.List.Sort
import Mathlib.Order.Monotone.Defs

/-!
# Ranks and histograms

The items of a list by size, and a histogram that sorts them into bins in the same order. The bin of
the `k`-th smallest item is the first one at which the items counted so far come to `k`.
-/

namespace Rank

section Count

variable {α : Type*} {P : α → Bool} {l : List α} {k : ℕ} {x : α}

/-- What has a property that passes to smaller items stands in front. -/
theorem sat_iff_lt_countP (hl : l.Pairwise fun x y => P y = true → P x = true)
    (hx : l[k]? = some x) : P x = true ↔ k < l.countP P := by
  induction l generalizing k with
  | nil => cases hx
  | cons a l ih =>
    obtain ⟨ha, hl⟩ := List.pairwise_cons.mp hl
    cases hP : P a with
    | true =>
      rw [List.countP_cons_of_pos hP]
      cases k with
      | zero =>
        obtain rfl := Option.some_inj.mp hx
        exact iff_of_true hP (Nat.succ_pos _)
      | succ k => rw [ih hl hx, Nat.succ_lt_succ_iff]
    | false =>
      have hnone : ∀ y ∈ a :: l, P y = false := by
        intro y hy
        rcases List.mem_cons.mp hy with rfl | hy
        · exact hP
        · exact Bool.eq_false_iff.mpr fun hc => Bool.false_ne_true (hP.symm.trans (ha y hy hc))
      have hzero : (a :: l).countP P = 0 := List.countP_eq_zero.mpr fun y hy => by simp [hnone y hy]
      rw [hzero, hnone x (List.mem_of_getElem? hx)]
      simp

/-- Two properties that exclude each other are counted one by one. -/
theorem countP_add {Q R : α → Bool} (h : ∀ x, (R x).toNat = (P x).toNat + (Q x).toNat) :
    l.countP R = l.countP P + l.countP Q := by
  induction l with
  | nil => rfl
  | cons a l ih =>
    have hone : ∀ c : Bool, (if c = true then 1 else 0) = c.toNat := by
      intro c
      cases c <;> rfl
    rw [List.countP_cons, List.countP_cons, List.countP_cons, hone, hone, hone, ih, h a]
    omega

end Count

variable {α β : Type*} [LinearOrder α] {l : List α} {k : ℕ} {x : α}

/-- `x` is the `k`-th smallest item, counted from 1. -/
def Ranked (l : List α) (k : ℕ) (x : α) : Prop :=
  1 ≤ k ∧ (l.mergeSort (· ≤ ·))[k - 1]? = some x

theorem exists_ranked (hk : 1 ≤ k) (hlen : k ≤ l.length) : ∃ x, Ranked l k x := by
  have hlt : k - 1 < (l.mergeSort (· ≤ ·)).length := by
    rw [List.length_mergeSort]
    omega
  exact ⟨_, hk, List.getElem?_eq_getElem hlt⟩

theorem Ranked.mem (h : Ranked l k x) : x ∈ l :=
  (List.mergeSort_perm l _).mem_iff.mp (List.mem_of_getElem? h.2)

/-- **The rank of an item.** It has a property that passes to smaller items just when so many items
have it. -/
theorem Ranked.sat_iff (h : Ranked l k x) {P : α → Bool}
    (hP : ∀ x y, x ≤ y → P y = true → P x = true) : P x = true ↔ k ≤ l.countP P := by
  have hsorted : (l.mergeSort (· ≤ ·)).Pairwise fun x y => P y = true → P x = true :=
    (List.pairwise_mergeSort' (· ≤ ·) l).imp fun hxy => hP _ _ hxy
  have hcount : (l.mergeSort (· ≤ ·)).countP P = l.countP P :=
    (List.mergeSort_perm l _).countP_eq P
  rw [sat_iff_lt_countP hsorted h.2, hcount]
  have := h.1
  omega

theorem Ranked.le_iff (h : Ranked l k x) (y : α) : x ≤ y ↔ k ≤ l.countP (· ≤ y) := by
  have hsat := h.sat_iff (P := fun z => decide (z ≤ y)) fun a b hab hb =>
    decide_eq_true (hab.trans (of_decide_eq_true hb))
  rwa [decide_eq_true_eq] at hsat

/-- A larger rank is that of no smaller item. -/
theorem Ranked.mono {k' : ℕ} {x' : α} (h : Ranked l k x) (h' : Ranked l k' x') (hk : k ≤ k') :
    x ≤ x' := (h.le_iff x').mpr (hk.trans ((h'.le_iff x').mp le_rfl))

/-! ### Histograms -/

/-- The first of the bins at which the items counted so far come to `k`. -/
def firstBin (hist : β → ℕ) (k : ℕ) : List β → ℕ → Option β
  | [], _ => none
  | b :: bins, seen => if k ≤ seen + hist b then some b else firstBin hist k bins (seen + hist b)

variable [LinearOrder β] {f : α → β} {hist : β → ℕ}

/-- From some bin on: the items counted so far are those of the bins below. -/
theorem Ranked.firstBin_of_seen (h : Ranked l k x) (hf : Monotone f)
    (hhist : ∀ b, hist b = l.countP (f · = b)) {bins : List β} {seen : ℕ}
    (hbins : bins.Pairwise (· < ·)) (hupper : ∀ a b, a ∈ bins → a ≤ b → b ∈ bins)
    (hseen : seen = l.countP (f · ∉ bins)) (hx : f x ∈ bins) :
    firstBin hist k bins seen = some (f x) := by
  induction bins generalizing seen with
  | nil => cases hx
  | cons b bins ih =>
    obtain ⟨hb, hbins⟩ := List.pairwise_cons.mp hbins
    have hupper' : ∀ a c, a ∈ bins → a ≤ c → c ∈ bins := by
      intro a c ha hac
      rcases List.mem_cons.mp (hupper a c (List.mem_cons_of_mem b ha) hac) with rfl | hc
      · exact absurd (hb a ha) (not_lt.mpr hac)
      · exact hc
    have hfirst : b ∉ bins := fun hc => lt_irrefl b (hb b hc)
    have hnext : seen + hist b = l.countP (f · ∉ bins) := by
      rw [hseen, hhist]
      refine (countP_add fun y => ?_).symm
      by_cases hy : f y = b
      · simp [hy, hfirst]
      · simp [hy]
    -- the item is below the bins that are left just when enough are
    have hbelow : f x ∉ bins ↔ k ≤ seen + hist b := by
      rw [hnext, ← h.sat_iff (P := fun y => decide (f y ∉ bins)), decide_eq_true_eq]
      intro y z hyz hz
      exact decide_eq_true fun hy => of_decide_eq_true hz (hupper' _ _ hy (hf hyz))
    rw [firstBin]
    by_cases hlast : f x ∉ bins
    · rw [if_pos (hbelow.mp hlast)]
      exact congrArg some ((List.mem_cons.mp hx).resolve_right hlast).symm
    · rw [if_neg (mt hbelow.mpr hlast)]
      exact ih hbins hupper' hnext (not_not.mp hlast)

end Rank
