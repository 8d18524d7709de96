import Fmma.Lib.Signed

/-!
# The quote engine

`quote_engine.v`: a two-sided quote for every change of the top of the book or of the position, in
two stages. The parameter is `IDX_W`; `POS_W` is 32, `LUT_AW` 6 and `BUCKET_SH` 4.
-/

namespace Fmma

/-- The inputs of `quote_engine` in one cycle. -/
structure QuoteIn (idxW : ℕ) where
  tobValid : Bool
  bidPresent : Bool
  askPresent : Bool
  bestBid : BitVec idxW
  bestAsk : BitVec idxW
  position : BitVec 32
  posUpdate : Bool
  quoteEnable : Bool
  halfSpread : BitVec 8
  posLimit : BitVec 32
  cfgLutWe : Bool
  cfgLutAddr : BitVec 6
  cfgLutData : BitVec 8
  cfgLutSwap : Bool

/-- The registers of `quote_engine`. -/
structure QuoteEngine (idxW : ℕ) where
  skewLut : BitVec 7 → BitVec 8
  liveBuf : Bool
  q0Valid : Bool
  q0BookOk : Bool
  q0LongLim : Bool
  q0ShortLim : Bool
  q0Bid : BitVec idxW
  q0Ask : BitVec idxW
  q0Skew : BitVec 8
  qValid : Bool
  qBidEn : Bool
  qAskEn : Bool
  qBid : BitVec idxW
  qAsk : BitVec idxW

namespace QuoteEngine

variable {idxW : ℕ}

/-- `bucket`: the position to a bucket, saturating. -/
def bucket (position : BitVec 32) : BitVec 6 :=
  let posSh := position.sshiftRight 4
  if 31 < posSh.toInt then BitVec.allOnes 6
  else if posSh.toInt < -32 then 0
  else BitVec.cons (!posSh.getLsbD 5) (posSh.extractLsb' 0 5)

/-! ### Q1, on signed words of `W = IDX_W + 3` bits -/

/-- `bid_s`. -/
def bidS (s : QuoteEngine idxW) : BitVec (idxW + 3) := s.q0Bid.setWidth (idxW + 3)

/-- `ask_s`. -/
def askS (s : QuoteEngine idxW) : BitVec (idxW + 3) := s.q0Ask.setWidth (idxW + 3)

/-- `hs`. -/
def hs (i : QuoteIn idxW) : BitVec (idxW + 3) := i.halfSpread.setWidth (idxW + 3)

/-- `sk`, sign-extended. -/
def sk (s : QuoteEngine idxW) : BitVec (idxW + 3) := s.q0Skew.signExtend (idxW + 3)

/-- `fair`. -/
def fair (s : QuoteEngine idxW) : BitVec (idxW + 3) := (s.bidS + s.askS).sshiftRight 1

/-- `raw_bid`. -/
def rawBid (s : QuoteEngine idxW) (i : QuoteIn idxW) : BitVec (idxW + 3) := s.fair - hs i - s.sk

/-- `raw_ask`. -/
def rawAsk (s : QuoteEngine idxW) (i : QuoteIn idxW) : BitVec (idxW + 3) := s.fair + hs i - s.sk

/-- `c_bid`: the bid stays below the best ask. -/
def cBid (s : QuoteEngine idxW) (i : QuoteIn idxW) : BitVec (idxW + 3) :=
  if s.askS.toInt ≤ (s.rawBid i).toInt then s.askS - 1 else s.rawBid i

/-- `c_ask`: the ask stays above the best bid. -/
def cAsk (s : QuoteEngine idxW) (i : QuoteIn idxW) : BitVec (idxW + 3) :=
  if (s.rawAsk i).toInt ≤ s.bidS.toInt then s.bidS + 1 else s.rawAsk i

/-- `bid_on_grid`. -/
def bidOnGrid (s : QuoteEngine idxW) (i : QuoteIn idxW) : Bool := 0 ≤ (s.cBid i).toInt

/-- `ask_on_grid`: up to `MAX_IDX`, which is `LEVELS - 1` for every `LEVELS` that an integer
parameter can be. -/
def askOnGrid (s : QuoteEngine idxW) (i : QuoteIn idxW) : Bool := (s.cAsk i).toInt ≤ 2 ^ idxW - 1

/-- A positive edge of `clk`. -/
def edge (rst : Bool) (s : QuoteEngine idxW) (i : QuoteIn idxW) : QuoteEngine idxW where
  skewLut :=
    if i.cfgLutWe then
      Function.update s.skewLut (BitVec.cons (!s.liveBuf) i.cfgLutAddr) i.cfgLutData
    else s.skewLut
  liveBuf := if rst then false else if i.cfgLutSwap then !s.liveBuf else s.liveBuf
  q0Valid := if rst then false else i.tobValid || i.posUpdate
  q0BookOk := i.bidPresent && i.askPresent && decide (i.bestBid < i.bestAsk)
  q0LongLim := i.posLimit.toInt ≤ i.position.toInt
  q0ShortLim := i.position.toInt ≤ (-i.posLimit).toInt
  q0Bid := i.bestBid
  q0Ask := i.bestAsk
  q0Skew := s.skewLut (BitVec.cons s.liveBuf (bucket i.position))
  qValid := if rst then false else s.q0Valid
  qBidEn := i.quoteEnable && s.q0BookOk && !s.q0LongLim && s.bidOnGrid i
  qAskEn := i.quoteEnable && s.q0BookOk && !s.q0ShortLim && s.askOnGrid i
  qBid := (s.cBid i).setWidth idxW
  qAsk := (s.cAsk i).setWidth idxW

end QuoteEngine

end Fmma
