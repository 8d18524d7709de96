import Fmma.App.Accounting
import Mathlib.Algebra.BigOperators.Ring.List
import Mathlib.Algebra.Order.BigOperators.Group.List
import Mathlib.Tactic.Linarith

/-!
# Inherited inventory

`--position` hands `fmma_risk_init` lots whose cost nobody knows. Their average price is stored as
0, which `fmma_risk_mark` takes for unknown. `fmma_risk_on_fill` takes it for a price: what is
sold of these lots is booked as pure profit, and what is bought back of a short as pure loss.
-/

namespace Fmma

namespace Risk

variable {r r' : Risk} {t : Trade} {σ p : Int} {l : List Trade}

/-- All lots have been bought or sold at `p`. -/
def AtPrice (p : Int) (r : Risk) : Prop := r.position = 0 ∨ r.avgPrice = p

/-- The lots on the side `σ` have an average below `p`. -/
structure Below (σ p : Int) (r : Risk) : Prop where
  side : 0 < σ * r.position
  nonneg : 0 ≤ r.avgPrice
  lt : r.avgPrice < p

/-- Trading at the price of the lots makes nothing. -/
theorem AtPrice.booked (hr : r.AtPrice p) (ht : t.price = p) (hq : t.qty ≠ 0)
    (h : Booked r t r') : r'.AtPrice p ∧ r'.realised = r.realised := by
  have hdiff : (t.price - r.avgPrice) * r.position = 0 := by
    obtain hx | havg := hr
    · rw [hx, mul_zero]
    · rw [ht, havg, sub_self, zero_mul]
  cases h with
  | adds =>
    refine ⟨.inr ?_, rfl⟩
    have hcost : r.cost t = p * r.units t := by
      unfold cost units
      obtain hx | havg := hr
      · rw [hx, ht, abs_zero]
        ring
      · rw [havg, ht]
        ring
    change (r.cost t).tdiv (r.units t) = p
    rw [hcost, Int.mul_tdiv_cancel _ (units_pos hq).ne']
  | reduces hacross =>
    have hx : r.position ≠ 0 := fun h => hacross.not_adds (.inl h)
    have havg : r.avgPrice = p := hr.resolve_left hx
    refine ⟨.inr havg, ?_⟩
    change r.realised + (t.price - r.avgPrice) * -t.signed = r.realised
    rw [ht, havg]
    ring
  | flattens =>
    refine ⟨.inl rfl, ?_⟩
    change r.realised + (t.price - r.avgPrice) * r.position = r.realised
    rw [hdiff, add_zero]
  | flips =>
    refine ⟨.inr ht, ?_⟩
    change r.realised + (t.price - r.avgPrice) * r.position = r.realised
    rw [hdiff, add_zero]

/-- **The first fill that closes lots below the price makes a profit**, or a loss where they are
short, and none takes it back: a fill that adds leaves the average below the price. -/
theorem Below.booked (hσ : σ = 1 ∨ σ = -1) (hr : r.Below σ p) (ht : t.price = p) (hq : t.qty ≠ 0)
    (h : Booked r t r') :
    (r'.Below σ p ∧ r'.realised = r.realised ∧ 0 < σ * t.signed) ∨
      ((r'.Below σ p ∨ r'.AtPrice p) ∧ σ * r.realised < σ * r'.realised) := by
  obtain ⟨hside, hnonneg, hlt⟩ := hr
  have hgain : 0 < t.price - r.avgPrice := by omega
  have hx : r.position ≠ 0 := by
    rintro hx
    rw [hx, mul_zero] at hside
    exact absurd hside (lt_irrefl 0)
  cases h with
  | adds hadd =>
    have hsame : 0 < σ * t.signed := by
      have := hadd.side (Trade.signed_ne_zero hq)
      obtain rfl | rfl := hσ <;> omega
    have hcost : r.cost t < p * r.units t := by
      have := mul_lt_mul_of_pos_right hlt (abs_pos.mpr hx)
      unfold cost units
      rw [ht]
      linarith
    have hcost' : 0 ≤ r.cost t := by
      have := mul_nonneg hnonneg (abs_nonneg r.position)
      have := mul_nonneg (hnonneg.trans hlt.le) (Int.natCast_nonneg t.qty.toNat)
      unfold cost
      rw [ht]
      linarith
    refine .inl ⟨⟨?_, Int.tdiv_nonneg hcost' (units_pos hq).le, ?_⟩, rfl, hsame⟩
    · change 0 < σ * (r.position + t.signed)
      linarith
    · change (r.cost t).tdiv (r.units t) < p
      rw [Int.tdiv_eq_ediv_of_nonneg hcost']
      exact Int.ediv_lt_of_lt_mul (units_pos hq) hcost
  | reduces hacross hpart =>
    -- the lots that are left keep their average, and what is closed makes the difference
    have hagainst : 0 < σ * -t.signed := by
      unfold Across at hacross
      obtain rfl | rfl := hσ <;> omega
    refine .inr ⟨.inl ⟨?_, hnonneg, hlt⟩, ?_⟩
    · change 0 < σ * (r.position + t.signed)
      obtain rfl | rfl := hσ <;> grind
    · change σ * r.realised < σ * (r.realised + (t.price - r.avgPrice) * -t.signed)
      have := mul_pos hgain hagainst
      linarith
  | flattens =>
    refine .inr ⟨.inr (.inl rfl), ?_⟩
    change σ * r.realised < σ * (r.realised + (t.price - r.avgPrice) * r.position)
    have := mul_pos hgain hside
    linarith
  | flips =>
    refine .inr ⟨.inr (.inr ht), ?_⟩
    change σ * r.realised < σ * (r.realised + (t.price - r.avgPrice) * r.position)
    have := mul_pos hgain hside
    linarith

section Run

theorem atPrice_run (hr : r.AtPrice p) (hl : ∀ t ∈ l, t.price = p) :
    (Trace.run book r l).realised = r.realised := by
  induction l generalizing r with
  | nil => rfl
  | cons t l ih =>
    obtain ⟨ht, hl⟩ := List.forall_mem_cons.mp hl
    rw [Trace.run_cons]
    by_cases hq : t.qty = 0
    · rw [book_of_zero hq]
      exact ih hr hl
    · obtain ⟨hr', hrealised⟩ := hr.booked ht hq (booked hq)
      rw [ih hr' hl, hrealised]

/-- Either a profit has been made, or all fills were on the side of the lots. -/
theorem Below.run (hσ : σ = 1 ∨ σ = -1) (hr : r.Below σ p) (hl : ∀ t ∈ l, t.price = p) :
    σ * r.realised < σ * (Trace.run book r l).realised ∨
      (Trace.run book r l).realised = r.realised ∧ ∀ t ∈ l, 0 ≤ σ * t.signed := by
  induction l generalizing r with
  | nil => exact .inr ⟨rfl, List.forall_mem_nil _⟩
  | cons t l ih =>
    obtain ⟨ht, hl⟩ := List.forall_mem_cons.mp hl
    rw [Trace.run_cons, List.forall_mem_cons]
    by_cases hq : t.qty = 0
    · rw [book_of_zero hq, Trade.signed_eq_zero.mpr hq, mul_zero]
      exact (ih hr hl).imp_right fun h => ⟨h.1, le_rfl, h.2⟩
    · obtain ⟨hr', hrealised, hsame⟩ | ⟨hr', hlt⟩ := hr.booked hσ ht hq (Risk.booked hq)
      · rw [← hrealised]
        exact (ih hr' hl).imp_right fun h => ⟨h.1, hsame.le, h.2⟩
      · obtain hbelow | hat := hr'
        · obtain h | ⟨h, -⟩ := ih hbelow hl
          · exact .inl (hlt.trans h)
          · rw [h]
            exact .inl hlt
        · rw [atPrice_run hat hl]
          exact .inl hlt

/-- Lots on one side that sum to zero are none. -/
theorem qty_eq_zero_of_sum (hσ : σ = 1 ∨ σ = -1) (hl : ∀ t ∈ l, 0 ≤ σ * t.signed)
    (hsum : (l.map Trade.signed).sum = 0) : ∀ t ∈ l, t.qty = 0 := by
  have hsum' : (l.map fun t => σ * t.signed).sum = 0 := by
    rw [List.sum_map_mul_left, hsum, mul_zero]
  intro t ht
  have hzero : σ * t.signed = 0 :=
    List.all_zero_of_le_zero_le_of_sum_eq_zero (List.forall_mem_map.mpr hl) hsum'
      (List.mem_map_of_mem ht)
  have hsigned : t.signed = 0 := by
    obtain rfl | rfl := hσ <;> omega
  exact Trade.signed_eq_zero.mp hsigned

/-- Fills of nothing do nothing. -/
theorem run_of_qty_zero (hl : ∀ t ∈ l, t.qty = 0) : Trace.run book r l = r := by
  induction l with
  | nil => rfl
  | cons t l ih =>
    obtain ⟨ht, hl⟩ := List.forall_mem_cons.mp hl
    rw [Trace.run_cons, book_of_zero ht, ih hl]

theorem unrealised_run : (Trace.run book r l).unrealised = r.unrealised := by
  induction l generalizing r with
  | nil => rfl
  | cons t l ih => rw [Trace.run_cons, ih, unrealised_book]

end Run

/-- Which side the inventory is on. -/
theorem below_init (maxLoss : Int) (staleFeedMs : Nat) {start : Int} (hstart : start ≠ 0)
    (hp : 1 ≤ p) : ∃ σ, (σ = 1 ∨ σ = -1) ∧ (init maxLoss staleFeedMs start).Below σ p := by
  obtain hneg | hpos := lt_or_gt_of_ne hstart
  · refine ⟨-1, .inr rfl, ⟨?_, le_rfl, hp⟩⟩
    change 0 < -1 * start
    omega
  · refine ⟨1, .inl rfl, ⟨?_, le_rfl, hp⟩⟩
    change 0 < 1 * start
    omega

end Risk

/-- **Inherited inventory makes a phantom profit.** Trading in and out at one price leaves the
position as it was. It leaves the realised P&L at 0, and with it the loss limit untouched, just
when there was no inventory at the start or nothing is traded. -/
theorem inherited_inventory_neutral_iff (maxLoss : Int) (staleFeedMs : Nat) (start p : Int)
    (l : List Trade) (hp : 1 ≤ p) (hprice : ∀ t ∈ l, t.price = p)
    (hsum : (l.map Trade.signed).sum = 0) :
    let r := Trace.run Risk.book (Risk.init maxLoss staleFeedMs start) l
    (r.position = start ∧ r.realised = 0 ∧ ¬r.Breached) ↔ start = 0 ∨ ∀ t ∈ l, t.qty = 0 := by
  intro r
  have hposition : r.position = start := by
    have := Risk.position_run (r := Risk.init maxLoss staleFeedMs start) (l := l)
    rw [hsum, add_zero] at this
    exact this
  have hbreached : r.realised = 0 → ¬r.Breached := by
    rintro hrealised ⟨hset, hreached⟩
    have hunrealised : r.unrealised = 0 := Risk.unrealised_run
    rw [Risk.pnl, hrealised, hunrealised] at hreached
    omega
  have hsame : (r.position = start ∧ r.realised = 0 ∧ ¬r.Breached) ↔ r.realised = 0 :=
    ⟨fun h => h.2.1, fun h => ⟨hposition, h, hbreached h⟩⟩
  rw [hsame]
  by_cases hstart : start = 0
  · exact iff_of_true (Risk.atPrice_run (.inl hstart) hprice) (.inl hstart)
  · obtain ⟨σ, hσ, hbelow⟩ := Risk.below_init maxLoss staleFeedMs hstart hp
    obtain hmade | ⟨hrealised, hside⟩ := hbelow.run hσ hprice
    · -- a lot has been closed, so that something has been traded
      have hne : r.realised ≠ 0 := by
        rintro hzero
        have hmade : σ * 0 < σ * r.realised := hmade
        rw [hzero] at hmade
        exact lt_irrefl _ hmade
      refine iff_of_false hne (not_or.mpr ⟨hstart, fun hzero => hne ?_⟩)
      change (Trace.run Risk.book (Risk.init maxLoss staleFeedMs start) l).realised = 0
      rw [Risk.run_of_qty_zero hzero]
      rfl
    · exact iff_of_true hrealised (.inr (Risk.qty_eq_zero_of_sum hσ hside hsum))

/-- One lot is bought and sold at 100, from a flat position. -/
theorem inherited_inventory_neutral_flat :
    let r := Trace.run Risk.book (Risk.init 50 60000 0) [⟨fillBought, 1, 100⟩, ⟨fillSold, 1, 100⟩]
    r.position = 0 ∧ r.realised = 0 ∧ ¬r.Breached :=
  (inherited_inventory_neutral_iff 50 60000 0 100 [⟨fillBought, 1, 100⟩, ⟨fillSold, 1, 100⟩]
    (by decide) (by decide) (by decide)).mpr (.inl rfl)

/-- **A loss that nobody made.** Short of five lots at the start, one is bought and sold at 100.
The five are booked as sold for nothing: the realised P&L is -100, past a limit of 50. -/
theorem not_inherited_inventory_neutral :
    ¬∀ (maxLoss : Int) (staleFeedMs : Nat) (start p : Int) (l : List Trade), 1 ≤ p →
      (∀ t ∈ l, t.price = p) → (l.map Trade.signed).sum = 0 →
      let r := Trace.run Risk.book (Risk.init maxLoss staleFeedMs start) l
      r.position = start ∧ r.realised = 0 ∧ ¬r.Breached := by
  intro hall
  obtain ⟨-, hrealised, -⟩ := hall 50 60000 (-5) 100 [⟨fillBought, 1, 100⟩, ⟨fillSold, 1, 100⟩]
    (by decide) (by decide) (by decide)
  exact absurd hrealised (by decide)

end Fmma
