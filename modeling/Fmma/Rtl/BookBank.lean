import Fmma.Lib.Priority
import Mathlib.Algebra.Group.Nat.Defs

/-!
# The order book of one symbol

`book_bank.v`: the quantities of all price levels in a RAM, updated by a read-modify-write pipeline
with a one-deep forward path, and two occupancy bitmaps with a two-stage search for the best
prices.

The parameters are `WSEL_W` and `QTY_W`: `IDX_W = WSEL_W + 5` and `LEVELS = 2 ^ IDX_W`, so there are
`WORDS = 2 ^ WSEL_W` words of 32 levels. Vectors of flops and the RAM are functions of their index.
A RAM address is `{side, idx}`, side 0 for bids and 1 for asks.
-/

namespace Fmma

/-- `{side, idx}`. -/
abbrev LevelAddr (wselW : ℕ) := BitVec (wselW + 5 + 1)

/-- The inputs of `book_bank` in one cycle. -/
structure BookIn (wselW qtyW : ℕ) where
  updValid : Bool
  updSide : Bool
  updIdx : BitVec (wselW + 5)
  updDelta : BitVec qtyW
  hostRdReq : Bool
  hostRdAddr : LevelAddr wselW

/-- The registers of `book_bank`. -/
structure BookBank (wselW qtyW : ℕ) where
  clrBusy : Bool
  clrAddr : LevelAddr wselW
  levelQty : LevelAddr wselW → BitVec qtyW
  rdQty : BitVec qtyW
  s1Valid : Bool
  s1Addr : LevelAddr wselW
  s1Delta : BitVec qtyW
  wbValid : Bool
  wbAddr : LevelAddr wselW
  wbQty : BitVec qtyW
  h1Valid : Bool
  h1Addr : LevelAddr wselW
  bidMap : BitVec (wselW + 5) → Bool
  askMap : BitVec (wselW + 5) → Bool
  bidAny : BitVec wselW → Bool
  askAny : BitVec wselW → Bool
  bidLoc : BitVec wselW → BitVec 5
  askLoc : BitVec wselW → BitVec 5
  bidPresent : Bool
  askPresent : Bool
  bestBid : BitVec (wselW + 5)
  bestAsk : BitVec (wselW + 5)
  vMap : Bool
  vB1 : Bool
  tobValid : Bool

namespace BookBank

variable {wselW qtyW : ℕ}

/-! ### Priority encoders -/

/-- A word of a bitmap, `map[w*32 +: 32]`. -/
def word (map : BitVec (wselW + 5) → Bool) (w : BitVec wselW) (k : ℕ) : Bool :=
  map (w ++ BitVec.ofNat 5 k)

/-- `msb32`. -/
def msb32 (v : ℕ → Bool) : BitVec 5 := BitVec.ofNat 5 (Priority.highest 32 v)

/-- `lsb32`. -/
def lsb32 (v : ℕ → Bool) : BitVec 5 := BitVec.ofNat 5 (Priority.lowest 32 v)

/-- `msbW`. -/
def msbW (v : BitVec wselW → Bool) : BitVec wselW :=
  BitVec.ofNat wselW (Priority.highest (2 ^ wselW) fun k => v (BitVec.ofNat wselW k))

/-- `lsbW`. -/
def lsbW (v : BitVec wselW → Bool) : BitVec wselW :=
  BitVec.ofNat wselW (Priority.lowest (2 ^ wselW) fun k => v (BitVec.ofNat wselW k))

/-- `|v`, of a word of 32 bits. -/
def any32 (v : ℕ → Bool) : Bool := (List.range 32).any v

/-- `|v`, of a vector with a bit for each word. -/
def anyW (v : BitVec wselW → Bool) : Bool :=
  (List.range (2 ^ wselW)).any fun k => v (BitVec.ofNat wselW k)

/-! ### Wires -/

/-- The RAM has been cleared. -/
def ready (b : BookBank wselW qtyW) : Bool := !b.clrBusy

/-- An update is accepted. -/
def updGo (b : BookBank wselW qtyW) (i : BookIn wselW qtyW) : Bool := i.updValid && b.ready

/-- A host read goes out. -/
def hostGo (b : BookBank wselW qtyW) (i : BookIn wselW qtyW) : Bool :=
  i.hostRdReq && !b.updGo i && !b.h1Valid

/-- The read port's address: the feed always wins. -/
def rdAddr (b : BookBank wselW qtyW) (i : BookIn wselW qtyW) : LevelAddr wselW :=
  if b.updGo i then BitVec.cons i.updSide i.updIdx else i.hostRdAddr

/-- The quantity the update in S1 is about, with the forward path. -/
def curQty (b : BookBank wselW qtyW) : BitVec qtyW :=
  if b.wbValid && b.wbAddr == b.s1Addr then b.wbQty else b.rdQty

/-- `sum` and `new_qty`: the signed delta is added, and the result clamped to 0 or saturated. -/
def applyDelta (cur delta : BitVec qtyW) : BitVec qtyW :=
  let sum := cur.setWidth (qtyW + 2) + delta.signExtend (qtyW + 2)
  if sum.getLsbD (qtyW + 1) then 0
  else if sum.getLsbD qtyW then BitVec.allOnes qtyW
  else sum.setWidth qtyW

/-- `new_qty`. -/
def newQty (b : BookBank wselW qtyW) : BitVec qtyW := applyDelta b.curQty b.s1Delta

/-- `host_rd_ack`. -/
def hostRdAck (b : BookBank wselW qtyW) : Bool := b.h1Valid

/-- `host_rd_data`. -/
def hostRdData (b : BookBank wselW qtyW) : BitVec qtyW :=
  if b.wbValid && b.wbAddr == b.h1Addr then b.wbQty else b.rdQty

/-! ### The clock -/

/-- A positive edge of `clk`. -/
def edge (rst : Bool) (b : BookBank wselW qtyW) (i : BookIn wselW qtyW) : BookBank wselW qtyW where
  clrBusy := if rst then true else if b.clrBusy then b.clrAddr != BitVec.allOnes _ else false
  clrAddr := if rst then 0 else if b.clrBusy then b.clrAddr + 1 else b.clrAddr
  levelQty :=
    if b.clrBusy then Function.update b.levelQty b.clrAddr 0
    else if b.s1Valid then Function.update b.levelQty b.s1Addr b.newQty
    else b.levelQty
  rdQty := b.levelQty (b.rdAddr i)
  s1Valid := if rst then false else b.updGo i
  s1Addr := b.rdAddr i
  s1Delta := i.updDelta
  wbValid := if rst then false else b.s1Valid
  wbAddr := b.s1Addr
  wbQty := b.newQty
  h1Valid := if rst then false else b.hostGo i
  h1Addr := i.hostRdAddr
  bidMap :=
    if rst then fun _ => false
    else if b.s1Valid && !b.s1Addr.msb then
      Function.update b.bidMap (b.s1Addr.setWidth _) (b.newQty != 0)
    else b.bidMap
  askMap :=
    if rst then fun _ => false
    else if b.s1Valid && b.s1Addr.msb then
      Function.update b.askMap (b.s1Addr.setWidth _) (b.newQty != 0)
    else b.askMap
  bidAny := fun w => any32 (word b.bidMap w)
  askAny := fun w => any32 (word b.askMap w)
  bidLoc := fun w => msb32 (word b.bidMap w)
  askLoc := fun w => lsb32 (word b.askMap w)
  bidPresent := anyW b.bidAny
  askPresent := anyW b.askAny
  bestBid := msbW b.bidAny ++ b.bidLoc (msbW b.bidAny)
  bestAsk := lsbW b.askAny ++ b.askLoc (lsbW b.askAny)
  vMap := if rst then false else b.s1Valid
  vB1 := if rst then false else b.vMap
  tobValid := if rst then false else b.vB1

end BookBank

end Fmma
