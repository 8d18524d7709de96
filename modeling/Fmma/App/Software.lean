import Fmma.Protocol

/-!
# The strategy in software

`fmma_strategy.c`, what the host decides with when there is no fabric.
-/

namespace Fmma

/-- `struct fmma_strategy`. -/
structure SoftStrategy where
  anchor : Int
  threshold : Word
  maxPosition : Word
  position : Int
  enabled : Bool
  rejects : Nat
  deriving DecidableEq

namespace SoftStrategy

/-- `fmma_strategy_init`. -/
def init (threshold maxPosition : Word) (startPosition : Int) : SoftStrategy where
  anchor := 0
  threshold := threshold
  maxPosition := maxPosition
  position := startPosition
  enabled := true
  rejects := 0

/-- What a quote is a reason for, against the band around the anchor. -/
def want (s : SoftStrategy) (sum : Int) : Word :=
  let band := 2 * (s.threshold.toNat : Int)
  if sum < s.anchor - band then signalBuy
  else if s.anchor + band < sum then signalSell
  else signalNone

/-- `fmma_strategy_on_quote`. -/
def onQuote (s : SoftStrategy) (bid ask : Word) : Word × SoftStrategy :=
  if bid = 0 ∨ ask = 0 then (signalNone, s)
  else
    let sum : Int := bid.toNat + ask.toNat
    if s.anchor = 0 then (signalNone, { s with anchor := sum })
    else
      let want := s.want sum
      let s := { s with anchor := sum }
      if want = signalNone then (signalNone, s)
      else if s.enabled = false then (signalNone, { s with rejects := s.rejects + 1 })
      else if want = signalBuy ∧ s.maxPosition.toInt ≤ s.position then
        (signalNone, { s with rejects := s.rejects + 1 })
      else if want = signalSell ∧ s.position ≤ -s.maxPosition.toInt then
        (signalNone, { s with rejects := s.rejects + 1 })
      else (want, s)

/-- `fmma_strategy_on_fill`. -/
def onFill (s : SoftStrategy) (side qty : Word) : SoftStrategy :=
  if side = fillBought then { s with position := s.position + qty.toInt }
  else { s with position := s.position - qty.toInt }

end SoftStrategy

end Fmma
