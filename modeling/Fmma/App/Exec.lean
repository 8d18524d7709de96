import Fmma.App.Fixed
import Fmma.Protocol
import Mathlib.Data.List.FinRange

/-!
# Order execution

`fmma_exec.c`: the slots of the orders that are still followed, the callbacks of the connections to
the broker, and the two calls of the event loop. The clock is read and the connections are opened
where the source does, and what they give comes as an argument. Left out are the counters of
`fmma_stats.c`, log messages, TLS, and the text of the requests.
-/

namespace Fmma

namespace Text

/-! ### The texts of an order object -/

def id : Text := ['i', 'd']

def status : Text := ['s', 't', 'a', 't', 'u', 's']

def filledQty : Text := ['f', 'i', 'l', 'l', 'e', 'd', '_', 'q', 't', 'y']

def filledAvgPrice : Text :=
  ['f', 'i', 'l', 'l', 'e', 'd', '_', 'a', 'v', 'g', '_', 'p', 'r', 'i', 'c', 'e']

def filled : Text := ['f', 'i', 'l', 'l', 'e', 'd']

def canceled : Text := ['c', 'a', 'n', 'c', 'e', 'l', 'e', 'd']

def expired : Text := ['e', 'x', 'p', 'i', 'r', 'e', 'd']

def rejected : Text := ['r', 'e', 'j', 'e', 'c', 't', 'e', 'd']

def doneForDay : Text := ['d', 'o', 'n', 'e', '_', 'f', 'o', 'r', '_', 'd', 'a', 'y']

def noId : Text := ['(', 'n', 'o', ' ', 'i', 'd', ')']

end Text

/-! ### The slots -/

/-- An index into `pending`, which has `MAX_PENDING` slots. -/
abbrev Slot := Fin 8

/-- `struct pending`, an order that was sent and is still followed. -/
structure Pending where
  active : Bool
  id : Text
  side : Word
  mark : Int
  sentUs : BitVec 64
  lastPollUs : BitVec 64
  queryInFlight : Bool

/-- What `fmma_exec` reads of `struct fmma_config`. -/
structure ExecConfig where
  cooldownMs : Word
  orderPollMs : Word
  dryRun : Bool

/-- `struct fmma_exec`, and the calls of `on_fill`, the latest first: the side, the quantity in lots
and the price. -/
structure Exec where
  cfg : ExecConfig
  haveCredentials : Bool
  pending : Slot → Pending
  lastOrderMs : BitVec 64
  fills : List (Word × Word × Int)

/-- What mongoose tells a connection. A message has the status and the bytes of the body. -/
inductive ConnEvent
  | connect
  | httpMsg (status : Nat) (body : List Char)
  | error
  | close

namespace Exec

/-- The order of a slot is changed. -/
def modify (e : Exec) (slot : Slot) (f : Pending → Pending) : Exec :=
  { e with pending := Function.update e.pending slot (f (e.pending slot)) }

/-- `slot_alloc`: the first slot that is free. -/
def slotAlloc (e : Exec) : Option Slot := (List.finRange 8).find? fun i => !(e.pending i).active

/-! ### The end of an order -/

/-- `status_is_filled`. -/
def statusIsFilled (status : Text) : Bool := status = Text.filled

/-- `status_is_terminal`. -/
def statusIsTerminal (status : Text) : Bool :=
  statusIsFilled status || status = Text.canceled || status = Text.expired ||
    status = Text.rejected || status = Text.doneForDay

/-- The fill an order of the side is reported as. -/
def fillOf (side : Word) : Word := if side = signalBuy then fillBought else fillSold

/-- `settle`. -/
def settle (e : Exec) (slot : Slot) (status : Text) (price : Int) (qty : Word) : Exec :=
  if (e.pending slot).active then
    let e :=
      if statusIsFilled status then { e with
        fills := (fillOf (e.pending slot).side, qty, price) :: e.fills }
      else e
    e.modify slot fun p => { p with active := false }
  else e

/-! ### The callbacks -/

/-- `body`: the first 1023 bytes, as a C string. -/
def bodyText (bytes : List Char) : Text := Text.ofBuffer (bytes.take 1023)

/-- The price to report: `filled_avg_price`, or the mark where there is none. -/
def fillPrice (body : Text) (mark : Int) : Int :=
  match Json.copyString body Text.filledAvgPrice 32 with
  | none => mark
  | some fp =>
    if fp = [] ∨ Fixed.parseScaled fp Fixed.priceScale = Fixed.parseError then mark
    else Fixed.parseScaled fp Fixed.priceScale

/-- `status` as `fmma_json_copy_string` leaves it: empty where there is none. -/
def statusText (body : Text) : Text := (Json.copyString body Text.status 32).getD []

/-- `order_cb`, the callback of the request that sends an order. -/
def orderCb (e : Exec) (slot : Slot) : ConnEvent → Exec
  | .connect => e
  | .httpMsg status bytes =>
    let body := bodyText bytes
    if 200 ≤ status ∧ status < 300 then
      let e := e.modify slot fun p => { p with
        id := (Json.copyString body Text.id 48).getD Text.noId }
      let st := statusText body
      if statusIsTerminal st then
        e.settle slot st (fillPrice body (e.pending slot).mark) 1
      else e
    else e.modify slot fun p => { p with active := false }
  | .error => e.modify slot fun p => { p with active := false }
  | .close => e

/-- `query_cb`, the callback of a request for the status of an order. -/
def queryCb (e : Exec) (slot : Slot) : ConnEvent → Exec
  | .connect => e
  | .httpMsg _ bytes =>
    let body := bodyText bytes
    let st := statusText body
    let e :=
      if statusIsTerminal st then
        -- "0" is the only quantity that counts as nothing filled
        let qty : Word := if Json.copyString body Text.filledQty 32 = some ['0'] then 0 else 1
        if qty ≠ 0 then e.settle slot st (fillPrice body (e.pending slot).mark) qty
        else e.modify slot fun p => { p with active := false }
      else e
    e.modify slot fun p => { p with queryInFlight := false }
  | .error | .close => e.modify slot fun p => { p with queryInFlight := false }

/-! ### The calls of the event loop -/

/-- `fmma_exec_create`. -/
def create (cfg : ExecConfig) (haveCredentials : Bool) : Exec where
  cfg := cfg
  haveCredentials := haveCredentials
  pending := fun _ => ⟨false, [], 0, 0, 0, 0, false⟩
  lastOrderMs := 0
  fills := []

/-- `fmma_exec_send`: the slot of the order, if it went out. -/
def send (e : Exec) (side : Word) (mark : Int) (nowMs nowUs : BitVec 64) (opened : Bool) :
    Option Slot × Exec :=
  if nowMs - e.lastOrderMs < e.cfg.cooldownMs.setWidth 64 then (none, e)
  else if e.cfg.dryRun then (none, { e with lastOrderMs := nowMs })
  else if !e.haveCredentials then (none, e)
  else
    match e.slotAlloc with
    | none => (none, e)
    | some slot =>
      let e := e.modify slot fun _ => ⟨true, [], side, mark, nowUs, nowUs, false⟩
      if opened then (some slot, { e with lastOrderMs := nowMs })
      else (none, e.modify slot fun p => { p with active := false })

/-- One turn of the loop of `fmma_exec_poll`: whether the status of the order is asked for. -/
def pollSlot (e : Exec) (now : BitVec 64) (opened : Bool) (i : Slot) : Bool × Exec :=
  let p := e.pending i
  if !p.active || p.queryInFlight || p.id = [] then (false, e)
  else if now - p.lastPollUs < e.cfg.orderPollMs.setWidth 64 * 1000 then (false, e)
  else
    let e := e.modify i fun p => { p with lastPollUs := now }
    -- given up after 60 seconds
    if 60000000 < now - p.sentUs then (false, e.modify i fun p => { p with active := false })
    else if opened then (true, e.modify i fun p => { p with queryInFlight := true })
    else (false, e)

/-- `fmma_exec_poll`: the slots whose orders are asked for, the latest first. -/
def poll (e : Exec) (now : BitVec 64) (opened : Slot → Bool) : List Slot × Exec :=
  (List.finRange 8).foldl (fun a i =>
    let (asked, e) := a.2.pollSlot now (opened i) i
    (if asked then i :: a.1 else a.1, e)) ([], e)

end Exec

end Fmma
