import Fmma.App.Fields
import Fmma.App.Price
import Fmma.Lib.Trace
import Mathlib.Data.List.Chain

/-!
# The market-data feed

`fmma_feed.c`: the connection to the exchange, its reconnections, and what is made of a message. The
clock is read and a connection is asked for where the source does, and what they give comes as an
argument. Times are integers, since the clock does not come to the end of 64 bits. Left out are the
TLS handshake, the text of the subscription, and log messages.
-/

namespace Fmma

namespace Text

/-! ### The texts of a message -/

def ticker : Text := ['t', 'i', 'c', 'k', 'e', 'r']

def bestBid : Text := ['b', 'e', 's', 't', '_', 'b', 'i', 'd']

def bestAsk : Text := ['b', 'e', 's', 't', '_', 'a', 's', 'k']

def bestBidSize : Text := ['b', 'e', 's', 't', '_', 'b', 'i', 'd', '_', 's', 'i', 'z', 'e']

def bestAskSize : Text := ['b', 'e', 's', 't', '_', 'a', 's', 'k', '_', 's', 'i', 'z', 'e']

end Text

/-- `struct fmma_quote`. -/
structure Quote where
  bid : Word
  ask : Word
  bidSize : Word
  askSize : Word
  deriving DecidableEq

/-- `struct fmma_feed`, with the counters of `fmma_stats.c` that it moves. -/
structure MarketFeed where
  conn : Option ℕ
  reconnectAtUs : ℕ
  backoffMs : ℕ
  connected : Bool
  clampedPrices : ℕ
  errors : ℕ
  feedDrops : ℕ

/-- What mongoose tells the connection. A message has its bytes, and whether the heap has room for
one that is too long for the stack. -/
inductive FeedEvent
  | connect
  | wsOpen
  | wsMsg (bytes : List Char) (allocated : Bool)
  | error
  | close

namespace MarketFeed

/-- `BACKOFF_MIN_MS`. -/
def backoffMinMs : ℕ := 500

/-- `BACKOFF_MAX_MS`. -/
def backoffMaxMs : ℕ := 30000

/-- `SIZE_SCALE`. -/
def sizeScale : ℕ := 10000

/-- `schedule_reconnect`. -/
def scheduleReconnect (f : MarketFeed) (nowUs : ℕ) : MarketFeed :=
  { f with
    conn := none
    connected := false
    reconnectAtUs := nowUs + f.backoffMs * 1000
    backoffMs := if backoffMaxMs < f.backoffMs * 2 then backoffMaxMs else f.backoffMs * 2 }

/-! ### A message -/

/-- A size: 0 where it is missing, or too large for its word. -/
def size (json name : Text) : Word :=
  match Json.string json name with
  | none => 0
  | some s =>
    let v := Fixed.parseScaled s sizeScale
    if 0 < v ∧ v < 0x7FFFFFFF then BitVec.ofInt 32 v else 0

/-- `handle_ticker`: the feed after it, and the call of `on_quote` it makes, if any. -/
def handleTicker (f : MarketFeed) (json : Text) : MarketFeed × Option Quote :=
  match Json.string json Text.bestBid, Json.string json Text.bestAsk with
  | some bidS, some askS =>
    let bid := Fixed.parseScaled bidS Fixed.priceScale
    let ask := Fixed.parseScaled askS Fixed.priceScale
    if bid = Fixed.parseError ∨ ask = Fixed.parseError then (f, none)
    else
      let (qBid, clampedB) := Fixed.clampPrice bid
      let (qAsk, clampedA) := Fixed.clampPrice ask
      let f := if clampedB || clampedA then { f with clampedPrices := f.clampedPrices + 1 } else f
      if qBid = 0 ∨ qAsk = 0 then (f, none)
      else (f, some ⟨qBid, qAsk, size json Text.bestBidSize, size json Text.bestAskSize⟩)
  | _, _ => (f, none)

/-- `feed_cb`. -/
def feedCb (f : MarketFeed) (nowUs : ℕ) : FeedEvent → MarketFeed × Option Quote
  | .connect => (f, none)
  | .wsOpen => ({ f with
      connected := true
      backoffMs := backoffMinMs }, none)
  | .wsMsg bytes allocated =>
    if 2048 < bytes.length + 1 ∧ allocated = false then (f, none)
    else if Json.typeIs (Text.ofBuffer bytes) Text.ticker then
      f.handleTicker (Text.ofBuffer bytes)
    else (f, none)
  | .error => ({ f with errors := f.errors + 1 }, none)
  | .close =>
    let f := if f.connected then { f with feedDrops := f.feedDrops + 1 } else f
    (f.scheduleReconnect nowUs, none)

/-! ### The calls of the event loop -/

/-- `fmma_feed_create`. -/
def create : MarketFeed where
  conn := none
  reconnectAtUs := 0
  backoffMs := backoffMinMs
  connected := false
  clampedPrices := 0
  errors := 0
  feedDrops := 0

/-- `fmma_feed_start`: `mg_ws_connect` gives a connection or `NULL`. -/
def start (f : MarketFeed) (nowUs : ℕ) (opened : Option ℕ) : MarketFeed :=
  let f := { f with conn := opened }
  if opened = none then f.scheduleReconnect nowUs else f

/-- `fmma_feed_poll` asks for a connection. -/
def Due (f : MarketFeed) (nowUs : ℕ) : Prop :=
  f.conn = none ∧ f.reconnectAtUs ≠ 0 ∧ f.reconnectAtUs ≤ nowUs

instance (f : MarketFeed) (nowUs : ℕ) : Decidable (f.Due nowUs) :=
  inferInstanceAs (Decidable (_ ∧ _))

/-- `fmma_feed_poll`. The clock is read again where the connection is refused. -/
def poll (f : MarketFeed) (nowUs refusedUs : ℕ) (opened : Option ℕ) : MarketFeed :=
  if f.Due nowUs then { f with reconnectAtUs := 0 }.start refusedUs opened else f

end MarketFeed

end Fmma
