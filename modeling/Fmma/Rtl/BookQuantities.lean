import Fmma.Rtl.TopOfBook

/-!
# The quantities of the book

What is in the RAM once the pipeline has drained: at every level the changes accepted for it, made
one after the other.
-/

namespace Fmma

variable {wselW qtyW : ℕ}

/-- One signed change of a quantity, kept between 0 and the largest. -/
def clampAdd (qtyW : ℕ) (q delta : ℤ) : ℤ := min (2 ^ qtyW - 1) (max 0 (q + delta))

/-- An update is for a level. -/
def BookIn.hits (i : BookIn wselW qtyW) (side : Bool) (idx : BitVec (wselW + 5)) : Bool :=
  i.updSide == side && i.updIdx == idx

/-- The quantity that a sequence of updates leaves at a level of an empty book. -/
def quantity (updates : List (BookIn wselW qtyW)) (side : Bool) (idx : BitVec (wselW + 5)) : ℤ :=
  (updates.filter (·.hits side idx)).foldl (fun q u => clampAdd qtyW q u.updDelta.toInt) 0

theorem quantity_append (us : List (BookIn wselW qtyW)) (u : BookIn wselW qtyW) (side : Bool)
    (idx : BitVec (wselW + 5)) : quantity (us ++ [u]) side idx =
      if u.hits side idx then clampAdd qtyW (quantity us side idx) u.updDelta.toInt
      else quantity us side idx := by
  rw [quantity, List.filter_append, List.foldl_append]
  cases h : u.hits side idx <;> simp only [List.filter, h] <;> rfl

namespace BookBank

variable (b : BookBank wselW qtyW) (i : BookIn wselW qtyW) (inp : ℕ → BookIn wselW qtyW)

/-- The updates accepted before cycle `n`, in order. -/
def accepted (n : ℕ) : List (BookIn wselW qtyW) :=
  ((List.range n).filter (accepts b i inp)).map inp

theorem accepted_succ (n : ℕ) : accepted b i inp (n + 1) =
    if accepts b i inp n then accepted b i inp n ++ [inp n] else accepted b i inp n := by
  rw [accepted, List.range_succ, List.filter_append, List.map_append]
  cases h : accepts b i inp n
  · simp only [List.filter, h]
    exact List.append_nil _
  · simp only [List.filter, h]
    rfl

/-- The reference book, level by level. -/
theorem refBook_eq (n : ℕ) (side : Bool) (idx : BitVec (wselW + 5)) :
    (refBook b i inp n side idx : ℤ) = quantity (accepted b i inp n) side idx := by
  induction n with
  | zero => rfl
  | succ n ih =>
    have haccepts : (afterReset b i inp n).updGo (inp n) = accepts b i inp n := rfl
    have hfollow : refBook b i inp (n + 1) =
        follow (refBook b i inp n) (afterReset b i inp n) (inp n) := rfl
    rw [hfollow, follow, haccepts, accepted_succ]
    cases accepts b i inp n with
    | false => exact ih
    | true =>
      rw [if_pos rfl, if_pos rfl, quantity_append, RefBook.apply, ih]
      by_cases hhit : side = (inp n).updSide ∧ idx = (inp n).updIdx
      · have hhits : (inp n).hits side idx = true := by
          rw [BookIn.hits, hhit.1, hhit.2, beq_self_eq_true, beq_self_eq_true]
          rfl
        have hmax : (0 : ℤ) ≤ 2 ^ qtyW - 1 := Int.sub_nonneg_of_le (one_le_pow₀ one_le_two)
        rw [if_pos hhit, if_pos hhits, clampAdd, Int.toNat_of_nonneg (le_max_left _ _)]
        omega
      · have hhits : ¬(inp n).hits side idx = true := by
          rw [BookIn.hits, Bool.and_eq_true, beq_iff_eq, beq_iff_eq]
          exact fun h => hhit ⟨h.1.symm, h.2.symm⟩
        rw [if_neg hhit, if_neg hhits]
        exact ih

variable {b i inp} in
/-- Before the first update. -/
theorem accepted_eq_nil {n : ℕ} (hnone : ∀ m < n, accepts b i inp m = false) :
    accepted b i inp n = [] := by
  rw [accepted, List.filter_eq_nil_iff.mpr, List.map_nil]
  intro m hm
  rw [hnone m (List.mem_range.mp hm)]
  exact Bool.false_ne_true

/-- One update that comes in once the RAM is cleared. -/
theorem accepted_single {N : ℕ} (hN : 2 ^ (wselW + 5 + 1) ≤ N)
    (h : ∀ n, (inp n).updValid = (n == N)) : accepted b i inp (N + 1) = [inp N] := by
  have hbefore : accepted b i inp N = [] := by
    refine accepted_eq_nil fun n hn => ?_
    rw [accepts, updGo, h, beq_eq_false_iff_ne.mpr hn.ne]
    rfl
  have hready : (afterReset b i inp N).ready = true := (ready_iff b i inp N).mpr hN
  have haccepts : accepts b i inp N = true := by
    rw [accepts, updGo, h, beq_self_eq_true, hready]
    rfl
  rw [accepted_succ, haccepts, if_pos rfl, hbefore]
  rfl

variable {b i inp}

/-- The quantities once nothing is in the pipeline. -/
theorem levelQty_drained {n : ℕ} (hready : (afterReset b i inp n).ready = true)
    (hdrained : (afterReset b i inp n).s1Valid = false) (side : Bool) (idx : BitVec (wselW + 5)) :
    ((afterReset b i inp n).levelQty (BitVec.cons side idx)).toNat =
      quantity (accepted b i inp n) side idx := by
  have hbusy : (afterReset b i inp n).clrBusy = false := by
    rw [ready, Bool.not_eq_true'] at hready
    exact hready
  have hbook := (inv_afterReset b i inp n).book hbusy side idx
  rw [settled, hdrained, if_neg Bool.false_ne_true] at hbook
  rw [← hbook, refBook_eq]

/-- The occupancy bitmap of a side. -/
def occupancy (b : BookBank wselW qtyW) (side : Bool) : BitVec (wselW + 5) → Bool :=
  if side then b.askMap else b.bidMap

/-- A bank at rest, with some quantities in its RAM. -/
def resting (levelQty : LevelAddr wselW → BitVec qtyW) : BookBank wselW qtyW where
  clrBusy := false
  clrAddr := 0
  levelQty := levelQty
  rdQty := 0
  s1Valid := false
  s1Addr := 0
  s1Delta := 0
  wbValid := false
  wbAddr := 0
  wbQty := 0
  h1Valid := false
  h1Addr := 0
  bidMap := fun l => levelQty (BitVec.cons false l) != 0
  askMap := fun l => levelQty (BitVec.cons true l) != 0
  bidAny := fun _ => false
  askAny := fun _ => false
  bidLoc := fun _ => 0
  askLoc := fun _ => 0
  bidPresent := false
  askPresent := false
  bestBid := 0
  bestAsk := 0
  vMap := false
  vB1 := false
  tobValid := false

end BookBank

/-- **No update is lost.** After a reset, and whatever comes in from then on: when the RAM has been
cleared and no update is in the pipeline, every level has the quantity that the updates accepted for
it make, one after the other, and its bit in the bitmap says whether there is any. -/
theorem quantities_exact (b : BookBank wselW qtyW) (i : BookIn wselW qtyW)
    (inp : ℕ → BookIn wselW qtyW) (n : ℕ) (hready : (b.afterReset i inp n).ready = true)
    (hdrained : (b.afterReset i inp n).s1Valid = false) (side : Bool) (idx : BitVec (wselW + 5)) :
    ((b.afterReset i inp n).levelQty (BitVec.cons side idx)).toNat =
        quantity (b.accepted i inp n) side idx ∧
      ((b.afterReset i inp n).occupancy side idx = true ↔
        quantity (b.accepted i inp n) side idx ≠ 0) := by
  have hinv := b.inv_afterReset i inp n
  have hbusy : (b.afterReset i inp n).clrBusy = false := by
    rw [BookBank.ready, Bool.not_eq_true'] at hready
    exact hready
  have hqty := BookBank.levelQty_drained hready hdrained side idx
  have hmap : (b.afterReset i inp n).occupancy side idx =
      ((b.afterReset i inp n).levelQty (BitVec.cons side idx) != 0) := by
    cases side with
    | false => exact hinv.bidMap hbusy idx
    | true => exact hinv.askMap hbusy idx
  refine ⟨hqty, ?_⟩
  rw [hmap, bne_iff_ne, ← hqty]
  exact not_congr (BitVec.toNat_inj.symm.trans Int.natCast_eq_zero.symm)

/-- A book of 64 levels. One level is changed in the first two cycles that take an update, and the
host reads it in the next. -/
def BookIn.twice (k : ℕ) : BookIn 1 8 :=
  { updValid := k == 128 || k == 129
    updSide := false
    updIdx := 3
    updDelta := if k == 128 then 5 else -3
    hostRdReq := k == 130
    hostRdAddr := BitVec.cons false 3 }

/-- The second change finds the first in the pipeline. -/
theorem quantities_exact_twice :
    (((BookBank.resting fun _ => 0).afterReset (BookIn.twice 0) BookIn.twice 132).levelQty
        (BitVec.cons false 3)).toNat = 2 ∧
      ((BookBank.resting fun _ => 0).afterReset (BookIn.twice 0) BookIn.twice 132).occupancy
        false 3 = true := by
  let b : BookBank 1 8 := .resting fun _ => 0
  have hready : (b.afterReset (BookIn.twice 0) BookIn.twice 132).ready = true :=
    (b.ready_iff _ _ 132).mpr (by decide)
  have hbefore : b.accepted (BookIn.twice 0) BookIn.twice 128 = [] := by
    refine BookBank.accepted_eq_nil fun m hm => ?_
    have hfirst : (m == 128) = false := beq_eq_false_iff_ne.mpr (by omega)
    have hsecond : (m == 129) = false := beq_eq_false_iff_ne.mpr (by omega)
    rw [BookBank.accepts, BookBank.updGo, BookIn.twice, hfirst, hsecond]
    rfl
  have haccepted : b.accepted (BookIn.twice 0) BookIn.twice 132 =
      [BookIn.twice 128, BookIn.twice 129] := by
    have haccepts : ∀ k, 128 ≤ k →
        b.accepts (BookIn.twice 0) BookIn.twice k = (BookIn.twice k).updValid := fun k hk => by
      rw [BookBank.accepts, BookBank.updGo, (b.ready_iff _ _ k).mpr hk, Bool.and_true]
    have hfirst : b.accepts (BookIn.twice 0) BookIn.twice 128 = true := haccepts 128 (by decide)
    have hsecond : b.accepts (BookIn.twice 0) BookIn.twice 129 = true := haccepts 129 (by decide)
    have hthird : b.accepts (BookIn.twice 0) BookIn.twice 130 = false := haccepts 130 (by decide)
    have hlast : b.accepts (BookIn.twice 0) BookIn.twice 131 = false := haccepts 131 (by decide)
    rw [b.accepted_succ, hlast, b.accepted_succ, hthird, b.accepted_succ, hsecond, b.accepted_succ,
      hfirst, hbefore]
    rfl
  have hquantity : quantity [BookIn.twice 128, BookIn.twice 129] false 3 = 2 := by decide
  obtain ⟨hqty, hmap⟩ :=
    quantities_exact b (BookIn.twice 0) BookIn.twice 132 hready rfl false 3
  rw [haccepted, hquantity] at hqty hmap
  exact ⟨by exact_mod_cast hqty, hmap.mpr (by decide)⟩

end Fmma
