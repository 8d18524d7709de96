import Fmma.App.Json
import Mathlib.Algebra.Group.Int.Defs

/-!
# Fixed-point text

`fmma_parse_scaled` of `fmma_fixed.c`. Its arithmetic is in 64 bits and stays far inside them, since
the integer part saturates; the 32 bits of `div` do not wrap for scales up to `10 ^ 9`.
-/

namespace Fmma

namespace Fixed

/-- `FMMA_PARSE_ERROR`. -/
def parseError : Int := -2 ^ 63

/-- `WHOLE_SATURATE`. -/
def wholeSaturate : Nat := 100000000

/-- The value of a decimal digit. -/
def digit (c : Char) : Option Nat := if '0' ≤ c ∧ c ≤ '9' then some (c.toNat - 48) else none

/-- The loop over the integer part: its value, and what follows it. -/
def whole (acc : Nat) : Text → Nat × Text
  | [] => (acc, [])
  | c :: t =>
    match digit c with
    | some d => whole (if acc < wholeSaturate then acc * 10 + d else acc) t
    | none => (acc, c :: t)

/-- The loop over the fraction: `frac` and `div`. -/
def fraction (scale frac div : Nat) : Text → Nat × Nat
  | [] => (frac, div)
  | c :: t =>
    match digit c with
    | some d =>
      if div < scale then fraction scale (frac * 10 + d) (div * 10) t
      else fraction scale frac div t
    | none => (frac, div)

/-- The loop that fills the fraction up: ten steps are enough for a scale of 32 bits. -/
def pad (scale : Nat) : Nat → Nat → Nat → Nat
  | 0, frac, _ => frac
  | n + 1, frac, div => if div < scale then pad scale n (frac * 10) (div * 10) else frac

/-- The sign, and what follows it. -/
def sign : Text → Bool × Text
  | '-' :: t => (true, t)
  | '+' :: t => (false, t)
  | t => (false, t)

/-- `fmma_parse_scaled`. -/
def parseScaled (s : Text) (scale : Nat) : Int :=
  let (neg, p) := sign s
  if scale = 0 ∨ (p.head?.bind digit).isNone then parseError
  else
    let (whole, p) := whole 0 p
    let (frac, div) :=
      match p with
      | '.' :: p => fraction scale 0 1 p
      | _ => (0, 1)
    let v : Int := whole * scale + pad scale 10 frac div
    if neg then -v else v

/-- `FMMA_PRICE_SCALE`. -/
def priceScale : Nat := 100

example : parseScaled ['-', '1', '.', '0', '5', '9'] priceScale = -105 := by decide

end Fixed

end Fmma
