import Fmma.App.Risk
import Fmma.App.Software
import Fmma.Host

/-!
# The host program

The event handlers of `fmma_app.c`. `App` has the state they share, and records what they do to
the outside: the stores to the shared RAM and the calls of `fmma_exec_send`, the latest first. The
clock is read where the source reads it and comes with the event. Left out are the counters of
`fmma_stats.c` other than the time of the last tick, the timing of the software strategy on a copy
(`--bench`), and log messages.
-/

namespace Fmma

/-- What `fmma_app_create` reads of `struct fmma_config`. -/
structure AppConfig where
  threshold : Word
  maxPosition : Word
  startPosition : Int
  maxLoss : Int
  staleFeedMs : Nat

/-- `struct fmma_app`, and what it has done. -/
structure App where
  fpga : Option Fpga
  risk : Risk
  soft : SoftStrategy
  lastMid : Int
  lastTickUs : Nat
  stores : List (Addr × Word)
  sends : List (Word × Int)
  deriving DecidableEq

/-- What the event loop hands to the handlers, with the readings of the clock they make. -/
inductive HostEvent
  | quote (bid ask bidSize askSize : Word) (tickUs askedUs : Nat)
  | fill (side qty : Word) (price : Int)
  | signal (seq side tick : Word) (askedUs : Nat)

namespace App

/-- `fmma_app_create`, from the switch on: the fabric is loaded, unless there is none. -/
def create (cfg : AppConfig) (fpga : Option Fpga) : App where
  fpga := fpga
  risk := .init cfg.maxLoss cfg.staleFeedMs cfg.startPosition
  soft := .init cfg.threshold cfg.maxPosition cfg.startPosition
  lastMid := 0
  lastTickUs := 0
  stores := if fpga.isSome then setEnabled true else []
  sends := []

/-- `fmma_fpga_set_enabled`, which does nothing without a fabric. -/
def setEnabled (a : App) (enabled : Bool) : App :=
  if a.fpga.isSome then { a with stores := Fmma.setEnabled enabled ++ a.stores } else a

/-- `fmma_stats_feed_age_us`. -/
def feedAge (a : App) (askedUs : Nat) : Nat := askedUs - a.lastTickUs

/-- `act_on`. -/
def actOn (a : App) (side : Word) (askedUs : Nat) : App :=
  let (v, risk) := a.risk.check (a.feedAge askedUs)
  let a := { a with risk := risk }
  if v ≠ .ok then
    if v = .lossLimit ∨ v = .halted then a.setEnabled false else a
  else { a with sends := (side, a.lastMid) :: a.sends }

/-- `on_fill`. -/
def onFill (a : App) (side qty : Word) (price : Int) : App :=
  let a := { a with risk := a.risk.onFill side qty price }
  let a :=
    match a.fpga with
    | none => a
    | some f => { a with
        fpga := some (f.reportFill side qty).2
        stores := (f.reportFill side qty).1.reverse ++ a.stores }
  { a with soft := a.soft.onFill side qty }

/-- `on_quote`, up to the decision: the mark. -/
def marked (a : App) (bid ask : Word) : App :=
  let mid : Int := ((bid.toNat : Int) + ask.toNat) / 2
  { a with
    lastMid := mid
    risk := a.risk.mark mid }

/-- `on_quote`. -/
def onQuote (a : App) (bid ask bidSize askSize : Word) (tickUs askedUs : Nat) : App :=
  let a := a.marked bid ask
  match a.fpga with
  | some f => { a with
      fpga := some (f.publishTick bid ask bidSize askSize).2
      stores := (f.publishTick bid ask bidSize askSize).1.reverse ++ a.stores
      lastTickUs := tickUs }
  | none =>
    -- no fabric: this CPU decides
    let side := (a.soft.onQuote bid ask).1
    let a := { a with
      soft := (a.soft.onQuote bid ask).2
      lastTickUs := tickUs }
    if side ≠ signalNone then a.actOn side askedUs else a

/-- One turn of `drain_fpga`: `fmma_fpga_poll_signal` has found a signal. -/
def onSignal (a : App) (seq side tick : Word) (askedUs : Nat) : App :=
  match a.fpga with
  | none => a
  | some f =>
    let a := { a with fpga := some (f.received seq side tick).2 }
    if side = signalBuy ∨ side = signalSell then a.actOn side askedUs else a

/-- The handler of an event. -/
def step (a : App) : HostEvent → App
  | .quote bid ask bidSize askSize tickUs askedUs =>
    a.onQuote bid ask bidSize askSize tickUs askedUs
  | .fill side qty price => a.onFill side qty price
  | .signal seq side tick askedUs => a.onSignal seq side tick askedUs

/-- What the host last stored to a word. -/
def word (a : App) (d : Addr) : Option Word := a.stores.lookup d

end App

end Fmma
