import Fmma.Protocol

/-!
# Host-side risk

`fmma_risk.c`: average-cost accounting of the fills, the mark to market, and the check every
decision passes before an order is sent. Prices and profits are `int64_t`, the inventory is
`int32_t`; both are integers here, since C leaves their overflow undefined. Log messages are left
out, and with them `halt_reason`, which nothing reads.
-/

namespace Fmma

/-- `enum fmma_risk_verdict`. -/
inductive RiskVerdict
  | ok
  | lossLimit
  | staleFeed
  | halted
  deriving DecidableEq

/-- `struct fmma_risk`. -/
structure Risk where
  position : Int
  avgPrice : Int
  realised : Int
  unrealised : Int
  maxLoss : Int
  staleFeedMs : Nat
  halted : Bool
  deriving DecidableEq

namespace Risk

/-- `fmma_risk_init`. -/
def init (maxLoss : Int) (staleFeedMs : Nat) (startPosition : Int) : Risk where
  position := startPosition
  avgPrice := 0
  realised := 0
  unrealised := 0
  maxLoss := maxLoss
  staleFeedMs := staleFeedMs
  halted := false

/-- `fmma_risk_on_fill`. Adding to a position moves the average; reducing it realises the
difference against the average; crossing through zero does both. -/
def onFill (r : Risk) (side qty : Word) (price : Int) : Risk :=
  if qty = 0 then r
  else
    let signedQty := if side = fillBought then qty.toInt else -qty.toInt
    let old := r.position
    let newpos := old + signedQty
    if old = 0 ∨ (0 < old ↔ 0 < signedQty) then
      let total := r.avgPrice * |old| + price * qty.toNat
      let units := |old| + qty.toNat
      { r with
        avgPrice := if units = 0 then 0 else total.tdiv units
        position := newpos }
    else
      let closed := if |signedQty| < |old| then |signedQty| else |old|
      let perLot := if 0 < old then price - r.avgPrice else r.avgPrice - price
      { r with
        realised := r.realised + perLot * closed
        avgPrice :=
          -- the remainder of a flip opens at this price
          if ¬(0 < old ↔ 0 < newpos) ∧ newpos ≠ 0 then price
          else if newpos = 0 then 0
          else r.avgPrice
        position := newpos }

/-- `fmma_risk_mark`. -/
def mark (r : Risk) (mid : Int) : Risk :=
  if r.position = 0 ∨ r.avgPrice = 0 then { r with unrealised := 0 }
  else { r with unrealised := (mid - r.avgPrice) * r.position }

/-- `fmma_risk_pnl`. -/
def pnl (r : Risk) : Int := r.realised + r.unrealised

/-- `fmma_risk_halt`. -/
def halt (r : Risk) : Risk := { r with halted := true }

/-- The loss limit is set, and reached. -/
def Breached (r : Risk) : Prop := 0 < r.maxLoss ∧ r.pnl ≤ -r.maxLoss

instance (r : Risk) : Decidable r.Breached := instDecidableAnd

/-- The feed is too old. -/
def Stale (r : Risk) (feedAgeUs : Nat) : Prop :=
  0 < r.staleFeedMs ∧ r.staleFeedMs * 1000 < feedAgeUs

instance (r : Risk) (feedAgeUs : Nat) : Decidable (r.Stale feedAgeUs) := instDecidableAnd

/-- `fmma_risk_check`. -/
def check (r : Risk) (feedAgeUs : Nat) : RiskVerdict × Risk :=
  if r.halted = true then (.halted, r)
  else if r.Breached then (.lossLimit, r.halt)
  else if r.Stale feedAgeUs then (.staleFeed, r)
  else (.ok, r)

variable {r : Risk} {feedAgeUs : Nat}

@[simp]
theorem mark_halted (mid : Int) : (r.mark mid).halted = r.halted := by
  simp only [mark]
  split_ifs <;> rfl

@[simp]
theorem onFill_halted (side qty : Word) (price : Int) :
    (r.onFill side qty price).halted = r.halted := by
  simp only [onFill]
  split_ifs <;> rfl

end Risk

end Fmma
