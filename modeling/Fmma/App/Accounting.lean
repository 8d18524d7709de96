import Fmma.App.Risk
import Fmma.Lib.Trace
import Mathlib.Algebra.Order.Group.Int
import Mathlib.Tactic.LinearCombination
import Mathlib.Tactic.Ring

/-!
# Average-cost accounting

`fmma_risk_on_fill` over histories of any length. The quantity that every fill moves in a simple
way is the equity at a mid, what is realised and the inventory against its average price. A fill
of `q` lots at `p` moves it by `q * (mid - p)`, up to the remainder of the division that makes the
new average.
-/

namespace Fmma

/-- An executed order, what `fmma_risk_on_fill` is called with. -/
structure Trade where
  side : Word
  qty : Word
  price : Int
  deriving DecidableEq

namespace Trade

/-- The quantity with its sign, `signed_qty`. -/
def signed (t : Trade) : Int := if t.side = fillBought then t.qty.toInt else -t.qty.toInt

/-- Bought or sold, at least one lot, at a price of at least one. The quantity fits an
`int32_t`. -/
structure Valid (t : Trade) : Prop where
  side : t.side = fillBought ∨ t.side = fillSold
  qty : 0 < t.qty.toInt
  price : 1 ≤ t.price

variable {t : Trade}

theorem valid_iff : t.Valid ↔
    (t.side = fillBought ∨ t.side = fillSold) ∧ 0 < t.qty.toInt ∧ 1 ≤ t.price :=
  ⟨fun h => ⟨h.side, h.qty, h.price⟩, fun ⟨hside, hqty, hprice⟩ => ⟨hside, hqty, hprice⟩⟩

instance (t : Trade) : Decidable t.Valid := decidable_of_iff' _ valid_iff

theorem signed_eq_zero : t.signed = 0 ↔ t.qty = 0 := by
  have hzero : t.qty.toInt = 0 ↔ t.qty = 0 := BitVec.toInt_inj (y := (0 : Word))
  unfold signed
  split_ifs with h
  · exact hzero
  · rw [neg_eq_zero, hzero]

theorem toNat_pos (h : t.qty ≠ 0) : (0 : Int) < t.qty.toNat := by
  have := (BitVec.toNat_ne_iff_ne (y := (0 : Word))).mpr h
  have hzero : (0 : Word).toNat = 0 := rfl
  omega

theorem qty_ne_zero (h : 0 < t.qty.toInt) : t.qty ≠ 0 := by
  rintro hzero
  rw [hzero] at h
  exact absurd h (by decide)

theorem signed_ne_zero (h : t.qty ≠ 0) : t.signed ≠ 0 := mt signed_eq_zero.mp h

/-- What is added to the lots is what is added to their number. -/
theorem abs_signed (h : 0 < t.qty.toInt) : |t.signed| = t.qty.toNat := by
  have hnat : t.qty.toInt = t.qty.toNat := by
    rw [BitVec.toInt_eq_toNat_cond] at h ⊢
    split_ifs at h ⊢ with hlt
    · rfl
    · have := t.qty.isLt
      omega
  unfold signed
  split_ifs
  · rw [abs_of_pos h, hnat]
  · rw [abs_neg, abs_of_pos h, hnat]

end Trade

namespace Risk

/-- `fmma_risk_on_fill` for an executed order. -/
def book (r : Risk) (t : Trade) : Risk := r.onFill t.side t.qty t.price

/-- The fill opens a position or adds to it. -/
def Adds (r : Risk) (t : Trade) : Prop := r.position = 0 ∨ (0 < r.position ↔ 0 < t.signed)

instance (r : Risk) (t : Trade) : Decidable (r.Adds t) := instDecidableOr

/-- What the lots have cost after a fill that adds, `total`. -/
def cost (r : Risk) (t : Trade) : Int := r.avgPrice * |r.position| + t.price * t.qty.toNat

/-- How many there are then, `units`. -/
def units (r : Risk) (t : Trade) : Int := |r.position| + t.qty.toNat

/-- What the profit would be with all lots closed at `mid`. -/
def equity (r : Risk) (mid : Int) : Int := r.realised + (mid - r.avgPrice) * r.position

/-! ### What a fill does -/

/-- On different sides of zero. -/
def Across (a b : Int) : Prop := 0 < a ∧ b < 0 ∨ a < 0 ∧ 0 < b

/-- The state after a fill of `t`. -/
inductive Booked (r : Risk) (t : Trade) : Risk → Prop
  /-- Opening or adding: the average moves. -/
  | adds (h : r.Adds t) : Booked r t { r with
      avgPrice := (r.cost t).tdiv (r.units t)
      position := r.position + t.signed }
  /-- Closing a part: the difference is realised. -/
  | reduces (h : Across r.position t.signed) (hpart : |t.signed| < |r.position|) :
    Booked r t { r with
      realised := r.realised + (t.price - r.avgPrice) * -t.signed
      position := r.position + t.signed }
  /-- Closing all. -/
  | flattens (h : r.position ≠ 0) (hall : r.position + t.signed = 0) : Booked r t { r with
      realised := r.realised + (t.price - r.avgPrice) * r.position
      avgPrice := 0
      position := 0 }
  /-- Crossing through zero: the remainder opens at the price of the fill. -/
  | flips (h : Across r.position (r.position + t.signed)) : Booked r t { r with
      realised := r.realised + (t.price - r.avgPrice) * r.position
      avgPrice := t.price
      position := r.position + t.signed }

variable {r : Risk} {t : Trade} {mid p : Int}

theorem book_of_zero (h : t.qty = 0) : r.book t = r := by
  simp only [book, onFill, if_pos h]

/-- How many lots a fill closes, `closed`. -/
def closed (r : Risk) (t : Trade) : Int :=
  if |t.signed| < |r.position| then |t.signed| else |r.position|

/-- The average price behind a fill that closes. -/
def keptPrice (r : Risk) (t : Trade) : Int :=
  if ¬(0 < r.position ↔ 0 < r.position + t.signed) ∧ r.position + t.signed ≠ 0 then t.price
  else if r.position + t.signed = 0 then 0
  else r.avgPrice

theorem units_pos (h : t.qty ≠ 0) : 0 < r.units t := by
  have := Trade.toNat_pos h
  have := abs_nonneg r.position
  unfold units
  omega

theorem book_of_adds (h : t.qty ≠ 0) (hadd : r.Adds t) : r.book t = { r with
    avgPrice := (r.cost t).tdiv (r.units t)
    position := r.position + t.signed } := by
  have hbook : r.book t = { r with
      avgPrice := if r.units t = 0 then 0 else (r.cost t).tdiv (r.units t)
      position := r.position + t.signed } := by
    rw [book, onFill, if_neg h]
    exact if_pos hadd
  rw [hbook, if_neg (units_pos h).ne']

theorem book_of_not_adds (h : t.qty ≠ 0) (hadd : ¬r.Adds t) : r.book t = { r with
    realised := r.realised +
      (if 0 < r.position then t.price - r.avgPrice else r.avgPrice - t.price) * r.closed t
    avgPrice := r.keptPrice t
    position := r.position + t.signed } := by
  rw [book, onFill, if_neg h]
  exact if_neg hadd

/-- The difference per lot, times the lots, with the sign of the position. -/
theorem perLot_mul (price avg x c : Int) :
    (if 0 < x then price - avg else avg - price) * c =
      (price - avg) * (if 0 < x then c else -c) := by
  split_ifs
  · rfl
  · ring

/-- **What a fill does.** -/
theorem booked (h : t.qty ≠ 0) : Booked r t (r.book t) := by
  have hq : t.signed ≠ 0 := fun hzero => h (Trade.signed_eq_zero.mp hzero)
  by_cases hadd : r.Adds t
  · rw [book_of_adds h hadd]
    exact .adds hadd
  · have hx : r.position ≠ 0 := fun hzero => hadd (.inl hzero)
    have hsign : ¬(0 < r.position ↔ 0 < t.signed) := fun hsame => hadd (.inr hsame)
    rw [book_of_not_adds h hadd, perLot_mul]
    -- the fill takes less than the position, all of it, or more
    rcases lt_trichotomy |t.signed| |r.position| with hlt | heq | hgt
    · have hclosed : (if 0 < r.position then r.closed t else -r.closed t) = -t.signed := by
        rw [closed, if_pos hlt]
        grind
      have hkept : r.keptPrice t = r.avgPrice := by
        unfold keptPrice
        grind
      rw [hclosed, hkept]
      exact .reduces (by unfold Across; omega) hlt
    · have hclosed : (if 0 < r.position then r.closed t else -r.closed t) = r.position := by
        rw [closed, if_neg heq.not_lt]
        grind
      have hall : r.position + t.signed = 0 := by
        grind
      have hkept : r.keptPrice t = 0 := by
        simp [keptPrice, hall]
      rw [hclosed, hkept, hall]
      exact .flattens hx hall
    · have hclosed : (if 0 < r.position then r.closed t else -r.closed t) = r.position := by
        rw [closed, if_neg hgt.not_gt]
        grind
      have hflip : Across r.position (r.position + t.signed) := by
        unfold Across
        grind
      have hkept : r.keptPrice t = t.price := by
        unfold keptPrice
        grind
      rw [hclosed, hkept]
      exact .flips hflip

/-- A fill against the position is none that adds. -/
theorem Across.not_adds (h : Across r.position t.signed) : ¬r.Adds t := by
  unfold Adds
  unfold Across at h
  omega

/-- Neither is one that crosses zero, or ends there. -/
theorem Across.of_add {x q : Int} (h : Across x (x + q)) : Across x q := by
  unfold Across at h ⊢
  omega

theorem across_of_add_eq_zero {x q : Int} (hx : x ≠ 0) (h : x + q = 0) : Across x q := by
  unfold Across
  omega

/-! ### Equity -/

/-- The remainder of the average of a fill that adds, with the sign of the position. -/
def remainder (r : Risk) (t : Trade) : Int :=
  if 0 < t.signed then (r.cost t).tmod (r.units t) else -(r.cost t).tmod (r.units t)

/-- The position and a fill that adds to it are on one side of zero. -/
theorem Adds.side (hadd : r.Adds t) (hq : t.signed ≠ 0) :
    0 < t.signed ∧ 0 ≤ r.position ∨ t.signed < 0 ∧ r.position ≤ 0 := by
  unfold Adds at hadd
  omega

/-- It leaves as many lots as the average is taken over. -/
theorem Adds.abs_position (hadd : r.Adds t) (hq : 0 < t.qty.toInt) :
    |r.position + t.signed| = r.units t := by
  rw [units, ← Trade.abs_signed hq]
  obtain ⟨hpos, hx⟩ | ⟨hneg, hx⟩ := hadd.side (Trade.signed_ne_zero (Trade.qty_ne_zero hq))
  · rw [abs_of_pos hpos, abs_of_nonneg hx, abs_of_nonneg (by omega)]
  · rw [abs_of_neg hneg, abs_of_nonpos hx, abs_of_nonpos (by omega)]
    ring

/-- **Equity moves by the lots against the mid**, up to the remainder. -/
theorem Booked.equity {r' : Risk} (h : Booked r t r') (hq : 0 < t.qty.toInt) (mid : Int) :
    r'.equity mid = r.equity mid + t.signed * (mid - t.price) +
      if r.Adds t then r.remainder t else 0 := by
  have hsigned := Trade.abs_signed hq
  cases h with
  | adds hadd =>
    -- the new average times the lots is their cost less the remainder
    have hdiv := Int.mul_tdiv_add_tmod (r.cost t) (r.units t)
    have hlots := hadd.abs_position hq
    rw [if_pos hadd]
    obtain ⟨hpos, hx⟩ | ⟨hneg, hx⟩ := hadd.side (Trade.signed_ne_zero (Trade.qty_ne_zero hq))
    · have hcost : r.cost t = r.avgPrice * r.position + t.price * t.signed := by
        rw [cost, ← hsigned, abs_of_nonneg hx, abs_of_pos hpos]
      rw [abs_of_nonneg (by omega)] at hlots
      simp only [Risk.equity, remainder, if_pos hpos]
      linear_combination (-1 : Int) * hdiv - hcost - (r.cost t).tdiv (r.units t) * hlots
    · have hcost : r.cost t = -(r.avgPrice * r.position + t.price * t.signed) := by
        rw [cost, ← hsigned, abs_of_nonpos hx, abs_of_neg hneg]
        ring
      rw [abs_of_nonpos (by omega)] at hlots
      simp only [Risk.equity, remainder, if_neg hneg.not_gt]
      linear_combination hdiv + hcost + (r.cost t).tdiv (r.units t) * hlots
  | reduces hacross =>
    rw [if_neg hacross.not_adds]
    simp only [Risk.equity]
    ring
  | flattens hx hall =>
    rw [if_neg (across_of_add_eq_zero hx hall).not_adds]
    simp only [Risk.equity]
    linear_combination (t.price - mid) * hall
  | flips hacross =>
    rw [if_neg hacross.of_add.not_adds]
    simp only [Risk.equity]
    ring

/-- The position moves by the lots. -/
theorem position_book (r : Risk) (t : Trade) : (r.book t).position = r.position + t.signed := by
  by_cases h : t.qty = 0
  · rw [book_of_zero h, Trade.signed_eq_zero.mpr h, add_zero]
  · have hbooked : Booked r t (r.book t) := booked h
    generalize r.book t = r' at hbooked
    cases hbooked with
    | adds | reduces | flips => rfl
    | flattens _ hall => exact hall.symm

/-- No fill marks the position. -/
theorem unrealised_book (r : Risk) (t : Trade) : (r.book t).unrealised = r.unrealised := by
  by_cases h : t.qty = 0
  · rw [book_of_zero h]
  · have hbooked : Booked r t (r.book t) := booked h
    generalize r.book t = r' at hbooked
    cases hbooked with
    | adds | reduces | flattens | flips => rfl

/-! ### Histories -/

/-- What a history of fills is worth at a mid: each lot against the price it was filled at. -/
def flow (mid : Int) (l : List Trade) : Int := (l.map fun t => t.signed * (mid - t.price)).sum

/-- How far the averages of a history can be off: each fill that adds is off by less than the
position it leaves. -/
def slack (r : Risk) : List Trade → Int
  | [] => 0
  | t :: l => (if r.Adds t then |(r.book t).position| - 1 else 0) + slack (r.book t) l

/-- The average of a fill that adds is an exact one. -/
def Exact (r : Risk) (t : Trade) : Prop := r.Adds t → r.units t ∣ r.cost t

/-- The average price is known where there is a position, and only there. -/
structure Priced (r : Risk) : Prop where
  nonneg : 0 ≤ r.avgPrice
  zero : r.avgPrice = 0 ↔ r.position = 0

/-- An average of prices of at least one is at least one. -/
theorem Priced.units_le_cost (hr : r.Priced) (ht : t.Valid) : r.units t ≤ r.cost t := by
  have hold : |r.position| ≤ r.avgPrice * |r.position| := by
    by_cases hx : r.position = 0
    · simp [hx]
    · have hone : 1 ≤ r.avgPrice := by
        have := hr.nonneg
        have := mt hr.zero.mp hx
        omega
      exact le_mul_of_one_le_left (abs_nonneg _) hone
  have hnew : (t.qty.toNat : Int) ≤ t.price * t.qty.toNat :=
    le_mul_of_one_le_left (Int.natCast_nonneg _) ht.price
  unfold units cost
  omega

theorem Priced.book (hr : r.Priced) (ht : t.Valid) : (r.book t).Priced := by
  have hbooked : Booked r t (r.book t) := booked (Trade.qty_ne_zero ht.qty)
  generalize r.book t = r' at hbooked
  cases hbooked with
  | adds hadd =>
    -- the average does not come to 0, which would pass for unknown
    have hlots := hadd.abs_position ht.qty
    have hunits : 0 < r.units t := units_pos (Trade.qty_ne_zero ht.qty)
    have hone : 1 ≤ (r.cost t).tdiv (r.units t) := by
      rw [Int.tdiv_eq_ediv_of_nonneg (hunits.le.trans (hr.units_le_cost ht))]
      exact (Int.le_ediv_iff_mul_le hunits).mpr (by rw [one_mul]; exact hr.units_le_cost ht)
    refine ⟨zero_le_one.trans hone, ⟨fun h => ?_, fun h => ?_⟩⟩
    · have : (r.cost t).tdiv (r.units t) = 0 := h
      omega
    · have hzero : r.position + t.signed = 0 := h
      rw [hzero, abs_zero] at hlots
      omega
  | reduces hacross hpart =>
    have hx : r.position ≠ 0 := fun h => hacross.not_adds (.inl h)
    have hx' : r.position + t.signed ≠ 0 := by
      grind
    exact ⟨hr.nonneg, hr.zero.trans (iff_of_false hx hx')⟩
  | flattens => exact ⟨le_rfl, ⟨fun _ => rfl, fun _ => rfl⟩⟩
  | flips hacross =>
    have hprice : t.price ≠ 0 := by
      have := ht.price
      omega
    have hx' : r.position + t.signed ≠ 0 := by
      unfold Across at hacross
      omega
    exact ⟨zero_le_one.trans ht.price, iff_of_false hprice hx'⟩

/-- The remainder is less than the position that is left. -/
theorem Adds.abs_remainder_lt (hadd : r.Adds t) (hq : 0 < t.qty.toInt) :
    |r.remainder t| < |r.position + t.signed| := by
  have hlots := hadd.abs_position hq
  have hunits : 0 < r.units t := units_pos (Trade.qty_ne_zero hq)
  have habs : |r.remainder t| = |(r.cost t).tmod (r.units t)| := by
    unfold remainder
    split_ifs
    · rfl
    · rw [abs_neg]
  rw [habs, hlots, abs_lt]
  exact ⟨Int.lt_tmod_of_pos _ hunits, Int.tmod_lt_of_pos _ hunits⟩

/-- The profit of a marked state is its equity at the mark. -/
theorem Priced.pnl_mark (hr : r.Priced) : (r.mark mid).pnl = r.equity mid := by
  unfold mark pnl equity
  split_ifs with h
  · have hx : r.position = 0 := h.elim id hr.zero.mp
    simp [hx]
  · rfl

section Run

variable {l : List Trade}

theorem priced_run (hr : r.Priced) (hl : ∀ t ∈ l, t.Valid) : (Trace.run book r l).Priced := by
  induction l generalizing r with
  | nil => exact hr
  | cons t l ih =>
    obtain ⟨ht, hl⟩ := List.forall_mem_cons.mp hl
    exact ih (hr.book ht) hl

theorem position_run : (Trace.run book r l).position = r.position + (l.map Trade.signed).sum := by
  induction l generalizing r with
  | nil => simp
  | cons t l ih =>
    rw [Trace.run_cons, ih, position_book, List.map_cons, List.sum_cons, add_assoc]

/-- **The equity of a history** is what its lots are worth, up to its slack. -/
theorem equity_run (hl : ∀ t ∈ l, t.Valid) (mid : Int) :
    |(Trace.run book r l).equity mid - (r.equity mid + flow mid l)| ≤ slack r l := by
  induction l generalizing r with
  | nil => simp [flow, slack]
  | cons t l ih =>
    obtain ⟨ht, hl⟩ := List.forall_mem_cons.mp hl
    have hrest := ih hl (r := r.book t)
    have hstep := (booked (r := r) (Trade.qty_ne_zero ht.qty)).equity ht.qty mid
    have hoff : |if r.Adds t then r.remainder t else 0| ≤
        if r.Adds t then |(r.book t).position| - 1 else 0 := by
      split_ifs with hadd
      · rw [position_book]
        exact Int.le_sub_one_of_lt (hadd.abs_remainder_lt ht.qty)
      · rw [abs_zero]
    have hsplit : (Trace.run book r (t :: l)).equity mid - (r.equity mid + flow mid (t :: l)) =
        ((Trace.run book (r.book t) l).equity mid - ((r.book t).equity mid + flow mid l)) +
          if r.Adds t then r.remainder t else 0 := by
      simp only [Trace.run_cons, flow, List.map_cons, List.sum_cons]
      linear_combination hstep
    rw [hsplit, slack, add_comm (ite _ _ _)]
    exact (abs_add_le _ _).trans (add_le_add hrest hoff)

/-- It is exactly that when every average is exact. -/
theorem equity_run_of_exact (hl : ∀ t ∈ l, t.Valid) (hexact : Trace.Each book Exact r l) :
    (Trace.run book r l).equity mid = r.equity mid + flow mid l := by
  induction l generalizing r with
  | nil => simp [flow]
  | cons t l ih =>
    obtain ⟨ht, hl⟩ := List.forall_mem_cons.mp hl
    obtain ⟨hfirst, hexact⟩ := Trace.each_cons.mp hexact
    have hstep := (booked (r := r) (Trade.qty_ne_zero ht.qty)).equity ht.qty mid
    have hoff : (if r.Adds t then r.remainder t else 0) = 0 := by
      split_ifs with hadd
      · have hzero : (r.cost t).tmod (r.units t) = 0 := Int.tmod_eq_zero_of_dvd (hfirst hadd)
        unfold remainder
        rw [hzero, neg_zero, ite_self]
      · rfl
    rw [Trace.run_cons, ih hl hexact, hstep, hoff, flow, flow, List.map_cons, List.sum_cons]
    ring

end Run

end Risk

/-- **Money is conserved up to rounding.** After a history of fills from a flat position, the
position is the signed sum of the lots, the P&L at a mid is what each lot makes against its price
up to the slack of the history, and exactly that if all averages are exact, and the average price
is 0 just when the position is. -/
theorem money_conserved (maxLoss : Int) (staleFeedMs : Nat) (mid : Int) (l : List Trade)
    (hl : ∀ t ∈ l, t.Valid) :
    let start := Risk.init maxLoss staleFeedMs 0
    let r := Trace.run Risk.book start l
    r.position = (l.map Trade.signed).sum ∧
      |(r.mark mid).pnl - Risk.flow mid l| ≤ Risk.slack start l ∧
      (Trace.Each Risk.book Risk.Exact start l → (r.mark mid).pnl = Risk.flow mid l) ∧
      (r.avgPrice = 0 ↔ r.position = 0) := by
  intro start r
  have hstart : start.Priced := ⟨le_rfl, ⟨fun _ => rfl, fun _ => rfl⟩⟩
  have hr : r.Priced := Risk.priced_run hstart hl
  have hflat : start.equity mid = 0 := by
    simp [start, Risk.init, Risk.equity]
  refine ⟨?_, ?_, fun hexact => ?_, hr.zero⟩
  · have hposition : r.position = start.position + (l.map Trade.signed).sum := Risk.position_run
    rw [hposition]
    exact zero_add _
  · have hequity := Risk.equity_run hl mid (r := start)
    rw [hflat, zero_add] at hequity
    rw [hr.pnl_mark]
    exact hequity
  · rw [hr.pnl_mark, Risk.equity_run_of_exact hl hexact, hflat, zero_add]

/-- Three lots at 10 and 11 average to 10, which is 2 short; one is sold at 12 and the mid is 9. -/
theorem money_conserved_three :
    let l : List Trade := [⟨fillBought, 1, 10⟩, ⟨fillBought, 2, 11⟩, ⟨fillSold, 1, 12⟩]
    let r := Trace.run Risk.book (Risk.init 0 0 0) l
    r.position = 2 ∧ |(r.mark 9).pnl - -2| ≤ 2 ∧ (r.mark 9).pnl = 0 := by
  intro l r
  obtain ⟨hposition, hpnl, -⟩ := money_conserved 0 0 9 l (by decide)
  exact ⟨hposition, hpnl, by decide⟩

end Fmma
