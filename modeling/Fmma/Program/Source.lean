import Fmma.Assembler

/-!
# The two strategy programs

`trading.asm` and `market_maker.asm`, line by line, with the constants of
`fmma_protocol.inc` that both include. Comments of the sources are kept only where they
separate sections.
-/

namespace Fmma

namespace Program

open Assembler

/-- The names the two sources and the include file define. -/
inductive Symbol
  -- fmma_protocol.inc
  | protocolVersion | memWords | programBase | programLimit | inputBase | outputBase
  | priceScale | signalNone | signalBuy | signalSell | fillBought | fillSold | statusRunning
  | statusDataValid | statusRiskBlocked | statusDisabled | tickSeq | bid | ask | bidSize
  | askSize | cfgThresh | cfgMaxPos | cfgEnable | cfgHalfSpread | cfgSkew | cfgRestart
  | fillSeq | fillSide | fillQty | cfgPosition | heartbeat | signal | signalTick | signalSeq
  | position | status | rejects | fwVersion | quoteBid | quoteAsk
  -- labels
  | init | loop | fillWasSold | fillDone | nofill | setAnchor | doBuy | buyAllowed | doSell
  | sellAllowed | emit | riskBlock | disabledBlock | countReject | doRestart | isaMismatch
  | probeShift | probeOk | setQuotes
  deriving DecidableEq, Repr

/-- A label on its own line. -/
def label (s : Symbol) : Line Symbol := ⟨[s], none⟩

/-- A statement without a label. -/
def insn (s : Stmt Symbol) : Line Symbol := ⟨[], some s⟩

/-- `fmma_protocol.inc`. -/
def protocolInc : List (Line Symbol) :=
  [
    insn (.equ .protocolVersion (.num 2)), insn (.equ .memWords (.num 1024)),
    insn (.equ .programBase (.num 8)), insn (.equ .programLimit (.num 256)),
    insn (.equ .inputBase (.num 256)), insn (.equ .outputBase (.num 320)),
    insn (.equ .priceScale (.num 100)), insn (.equ .signalNone (.num 0)),
    insn (.equ .signalBuy (.num 1)), insn (.equ .signalSell (.num 2)),
    insn (.equ .fillBought (.num 1)), insn (.equ .fillSold (.num 2)),
    insn (.equ .statusRunning (.num 1)), insn (.equ .statusDataValid (.num 2)),
    insn (.equ .statusRiskBlocked (.num 4)), insn (.equ .statusDisabled (.num 8)),
    insn (.equ .tickSeq (.num 256)), insn (.equ .bid (.num 257)), insn (.equ .ask (.num 258)),
    insn (.equ .bidSize (.num 259)), insn (.equ .askSize (.num 260)),
    insn (.equ .cfgThresh (.num 261)), insn (.equ .cfgMaxPos (.num 262)),
    insn (.equ .cfgEnable (.num 263)), insn (.equ .cfgHalfSpread (.num 264)),
    insn (.equ .cfgSkew (.num 265)), insn (.equ .cfgRestart (.num 266)),
    insn (.equ .fillSeq (.num 267)), insn (.equ .fillSide (.num 268)),
    insn (.equ .fillQty (.num 269)), insn (.equ .cfgPosition (.num 270)),
    insn (.equ .heartbeat (.num 320)), insn (.equ .signal (.num 321)),
    insn (.equ .signalTick (.num 322)), insn (.equ .signalSeq (.num 323)),
    insn (.equ .position (.num 324)), insn (.equ .status (.num 325)),
    insn (.equ .rejects (.num 326)), insn (.equ .fwVersion (.num 327)),
    insn (.equ .quoteBid (.num 328)), insn (.equ .quoteAsk (.num 329)) ]

/-- `trading.asm`, the mean-reversion strategy with risk limits. -/
def tradingAsm : List (Line Symbol) :=
  protocolInc ++ [
    -- one-time initialisation
    label .init,
    insn (.rtype .XOR 0 0),
    insn (.ldi 1 (.num 1)),
    insn (.ldi 2 (.sym .tickSeq)),
    insn (.ldi 3 (.sym .heartbeat)),
    insn (.rtype .XOR 9 9),
    insn (.rtype .XOR 11 11),
    insn (.rtype .XOR 12 12),
    insn (.ldi 4 (.sym .cfgPosition)),
    insn (.load 13 4),
    insn (.ldi 4 (.sym .fillSeq)),
    insn (.load 14 4),
    insn (.rtype .XOR 7 7),
    insn (.ldi 4 (.sym .signal)),
    insn (.stor 7 4),
    insn (.ldi 4 (.sym .signalTick)),
    insn (.stor 7 4),
    insn (.ldi 4 (.sym .signalSeq)),
    insn (.stor 7 4),
    insn (.ldi 4 (.sym .position)),
    insn (.stor 13 4),
    insn (.ldi 4 (.sym .rejects)),
    insn (.stor 7 4),
    insn (.ldi 4 (.sym .quoteBid)),
    insn (.stor 7 4),
    insn (.ldi 4 (.sym .quoteAsk)),
    insn (.stor 7 4),
    insn (.ldi 7 (.sym .statusRunning)),
    insn (.ldi 4 (.sym .status)),
    insn (.stor 7 4),
    -- check the bitstream matches this program
    insn (.ldi 8 (.num 10)),
    insn (.itype .SUB 8 (.num 3)),
    insn (.ldi 7 (.num 7)),
    insn (.rtype .CMP 8 7),
    insn (.branch .NE (.sym .isaMismatch)),
    insn (.ldi 7 (.sym .protocolVersion)),
    insn (.ldi 4 (.sym .fwVersion)),
    insn (.stor 7 4),
    insn (.ldi 15 (.sym .loop)),
    label .loop,
    insn (.rtype .ADD 12 1),
    insn (.stor 12 3),
    -- has the HPS asked for a restart?
    insn (.ldi 4 (.sym .cfgRestart)),
    insn (.load 8 4),
    insn (.rtype .CMP 8 0),
    insn (.branch .NE (.sym .doRestart)),
    -- apply any fill the HPS has reported
    insn (.rtype .ADD 4 1),
    insn (.load 8 4),
    insn (.rtype .CMP 8 14),
    insn (.branch .EQ (.sym .nofill)),
    insn (.rtype .MOV 14 8),
    insn (.ldi 4 (.sym .fillSide)),
    insn (.load 8 4),
    insn (.ldi 4 (.sym .fillQty)),
    insn (.load 4 4),
    insn (.rtype .CMP 8 1),
    insn (.branch .NE (.sym .fillWasSold)),
    insn (.rtype .ADD 13 4),
    insn (.branch .UC (.sym .fillDone)),
    label .fillWasSold,
    insn (.rtype .SUB 13 4),
    label .fillDone,
    insn (.ldi 4 (.sym .position)),
    insn (.stor 13 4),
    label .nofill,
    -- has a new quote arrived?
    insn (.load 7 2),
    insn (.rtype .CMP 7 11),
    insn (.branch .EQ (.sym .loop)),
    -- seqlock read of the market-data block
    insn (.rtype .MOV 8 7),
    insn (.rtype .AND 8 1),
    insn (.rtype .CMP 8 0),
    insn (.branch .NE (.sym .loop)),
    insn (.rtype .MOV 4 2),
    insn (.rtype .ADD 4 1),
    insn (.load 5 4),
    insn (.rtype .ADD 4 1),
    insn (.load 6 4),
    insn (.load 8 2),
    insn (.rtype .CMP 8 7),
    insn (.branch .NE (.sym .loop)),
    insn (.rtype .MOV 11 7),
    -- need both sides of the book
    insn (.rtype .CMP 5 0),
    insn (.branch .EQ (.sym .loop)),
    insn (.rtype .CMP 6 0),
    insn (.branch .EQ (.sym .loop)),
    -- sum = bid + ask (twice the mid)
    insn (.rtype .MOV 7 5),
    insn (.rtype .ADD 7 6),
    insn (.rtype .CMP 9 0),
    insn (.branch .EQ (.sym .setAnchor)),
    insn (.ldi 4 (.sym .cfgThresh)),
    insn (.load 8 4),
    insn (.rtype .ADD 8 8),
    insn (.rtype .MOV 10 9),
    insn (.rtype .SUB 10 8),
    insn (.rtype .CMP 7 10),
    insn (.branch .LT (.sym .doBuy)),
    insn (.rtype .MOV 10 9),
    insn (.rtype .ADD 10 8),
    insn (.rtype .CMP 10 7),
    insn (.branch .LT (.sym .doSell)),
    label .setAnchor,
    insn (.rtype .MOV 9 7),
    insn (.jump .UC 15),
    label .doBuy,
    insn (.rtype .MOV 9 7),
    insn (.ldi 4 (.sym .cfgEnable)),
    insn (.load 8 4),
    insn (.rtype .CMP 8 0),
    insn (.branch .EQ (.sym .disabledBlock)),
    insn (.ldi 4 (.sym .cfgMaxPos)),
    insn (.load 8 4),
    insn (.rtype .CMP 13 8),
    insn (.branch .LT (.sym .buyAllowed)),
    insn (.branch .UC (.sym .riskBlock)),
    label .buyAllowed,
    insn (.ldi 7 (.sym .signalBuy)),
    insn (.branch .UC (.sym .emit)),
    label .doSell,
    insn (.rtype .MOV 9 7),
    insn (.ldi 4 (.sym .cfgEnable)),
    insn (.load 8 4),
    insn (.rtype .CMP 8 0),
    insn (.branch .EQ (.sym .disabledBlock)),
    insn (.ldi 4 (.sym .cfgMaxPos)),
    insn (.load 8 4),
    insn (.rtype .XOR 10 10),
    insn (.rtype .SUB 10 8),
    insn (.rtype .CMP 10 13),
    insn (.branch .LT (.sym .sellAllowed)),
    insn (.branch .UC (.sym .riskBlock)),
    label .sellAllowed,
    insn (.ldi 7 (.sym .signalSell)),
    insn (.branch .UC (.sym .emit)),
    -- publish
    label .emit,
    insn (.ldi 4 (.sym .signal)),
    insn (.stor 7 4),
    insn (.ldi 4 (.sym .signalTick)),
    insn (.stor 11 4),
    insn (.ldi 7 (.sym .statusRunning)),
    insn (.ldi 4 (.sym .status)),
    insn (.stor 7 4),
    insn (.ldi 4 (.sym .signalSeq)),
    insn (.load 8 4),
    insn (.rtype .ADD 8 1),
    insn (.stor 8 4),
    insn (.jump .UC 15),
    -- suppressed
    label .riskBlock,
    insn (.ldi 7 (.sym .statusRiskBlocked)),
    insn (.branch .UC (.sym .countReject)),
    label .disabledBlock,
    insn (.ldi 7 (.sym .statusDisabled)),
    label .countReject,
    insn (.rtype .ADD 7 1),
    insn (.ldi 4 (.sym .status)),
    insn (.stor 7 4),
    insn (.ldi 4 (.sym .rejects)),
    insn (.load 8 4),
    insn (.rtype .ADD 8 1),
    insn (.stor 8 4),
    insn (.jump .UC 15),
    -- software restart
    label .doRestart,
    insn (.rtype .XOR 8 8),
    insn (.stor 8 4),
    insn (.ldi 4 (.sym .init)),
    insn (.jump .UC 4),
    -- datapath mismatch
    label .isaMismatch,
    insn (.rtype .ADD 12 1),
    insn (.stor 12 3),
    insn (.ldi 4 (.sym .isaMismatch)),
    insn (.jump .UC 4) ]

/-- `market_maker.asm`, two-sided quoting with inventory skew. -/
def marketMakerAsm : List (Line Symbol) :=
  protocolInc ++ [
    -- one-time initialisation
    label .init,
    insn (.rtype .XOR 0 0),
    insn (.ldi 1 (.num 1)),
    insn (.ldi 2 (.sym .tickSeq)),
    insn (.ldi 3 (.sym .heartbeat)),
    insn (.rtype .XOR 11 11),
    insn (.rtype .XOR 12 12),
    insn (.rtype .XOR 9 9),
    insn (.rtype .XOR 10 10),
    insn (.ldi 4 (.sym .cfgPosition)),
    insn (.load 13 4),
    insn (.ldi 4 (.sym .fillSeq)),
    insn (.load 14 4),
    insn (.rtype .XOR 7 7),
    insn (.ldi 4 (.sym .signal)),
    insn (.stor 7 4),
    insn (.ldi 4 (.sym .signalTick)),
    insn (.stor 7 4),
    insn (.ldi 4 (.sym .signalSeq)),
    insn (.stor 7 4),
    insn (.ldi 4 (.sym .rejects)),
    insn (.stor 7 4),
    insn (.ldi 4 (.sym .quoteBid)),
    insn (.stor 7 4),
    insn (.ldi 4 (.sym .quoteAsk)),
    insn (.stor 7 4),
    insn (.ldi 4 (.sym .position)),
    insn (.stor 13 4),
    insn (.ldi 7 (.sym .statusRunning)),
    insn (.ldi 4 (.sym .status)),
    insn (.stor 7 4),
    -- prove the bitstream implements this ISA
    insn (.ldi 8 (.num 10)),
    insn (.itype .SUB 8 (.num 3)),
    insn (.ldi 7 (.num 7)),
    insn (.rtype .CMP 8 7),
    insn (.branch .EQ (.sym .probeShift)),
    insn (.ldi 4 (.sym .isaMismatch)),
    insn (.jump .UC 4),
    label .probeShift,
    insn (.ldi 8 (.num 64)),
    insn (.itype .LSH 8 (.num 31)),
    insn (.ldi 7 (.num 32)),
    insn (.rtype .CMP 8 7),
    insn (.branch .EQ (.sym .probeOk)),
    insn (.ldi 4 (.sym .isaMismatch)),
    insn (.jump .UC 4),
    label .probeOk,
    insn (.ldi 7 (.sym .protocolVersion)),
    insn (.ldi 4 (.sym .fwVersion)),
    insn (.stor 7 4),
    insn (.ldi 15 (.sym .loop)),
    label .loop,
    insn (.rtype .ADD 12 1),
    insn (.stor 12 3),
    -- restart request
    insn (.ldi 4 (.sym .cfgRestart)),
    insn (.load 8 4),
    insn (.rtype .CMP 8 0),
    insn (.branch .NE (.sym .doRestart)),
    -- fills
    insn (.rtype .ADD 4 1),
    insn (.load 8 4),
    insn (.rtype .CMP 8 14),
    insn (.branch .EQ (.sym .nofill)),
    insn (.rtype .MOV 14 8),
    insn (.ldi 4 (.sym .fillSide)),
    insn (.load 8 4),
    insn (.ldi 4 (.sym .fillQty)),
    insn (.load 4 4),
    insn (.rtype .CMP 8 1),
    insn (.branch .NE (.sym .fillWasSold)),
    insn (.rtype .ADD 13 4),
    insn (.branch .UC (.sym .fillDone)),
    label .fillWasSold,
    insn (.rtype .SUB 13 4),
    label .fillDone,
    insn (.ldi 4 (.sym .position)),
    insn (.stor 13 4),
    label .nofill,
    -- new quote?
    insn (.load 7 2),
    insn (.rtype .CMP 7 11),
    insn (.branch .EQ (.sym .loop)),
    -- seqlock snapshot
    insn (.rtype .MOV 8 7),
    insn (.rtype .AND 8 1),
    insn (.rtype .CMP 8 0),
    insn (.branch .NE (.sym .loop)),
    insn (.rtype .MOV 4 2),
    insn (.rtype .ADD 4 1),
    insn (.load 5 4),
    insn (.rtype .ADD 4 1),
    insn (.load 6 4),
    insn (.load 8 2),
    insn (.rtype .CMP 8 7),
    insn (.branch .NE (.sym .loop)),
    insn (.rtype .MOV 11 7),
    -- both sides of the book required
    insn (.rtype .CMP 5 0),
    insn (.branch .EQ (.sym .loop)),
    insn (.rtype .CMP 6 0),
    insn (.branch .EQ (.sym .loop)),
    insn (.rtype .CMP 9 0),
    insn (.branch .EQ (.sym .setQuotes)),
    insn (.rtype .MOV 7 5),
    insn (.rtype .ADD 7 7),
    insn (.rtype .CMP 7 10),
    insn (.branch .GE (.sym .doSell)),
    insn (.rtype .MOV 7 6),
    insn (.rtype .ADD 7 7),
    insn (.rtype .CMP 9 7),
    insn (.branch .GE (.sym .doBuy)),
    label .setQuotes,
    insn (.rtype .MOV 9 5),
    insn (.rtype .ADD 9 6),
    insn (.rtype .MOV 10 9),
    insn (.ldi 4 (.sym .cfgSkew)),
    insn (.load 7 4),
    insn (.rtype .MUL 7 13),
    insn (.rtype .ADD 7 7),
    insn (.ldi 4 (.sym .cfgHalfSpread)),
    insn (.load 8 4),
    insn (.rtype .ADD 8 8),
    insn (.rtype .SUB 9 8),
    insn (.rtype .SUB 9 7),
    insn (.rtype .ADD 10 8),
    insn (.rtype .SUB 10 7),
    -- publish the quotes (halved)
    insn (.rtype .MOV 7 9),
    insn (.itype .LSH 7 (.num 31)),
    insn (.ldi 4 (.sym .quoteBid)),
    insn (.stor 7 4),
    insn (.rtype .MOV 7 10),
    insn (.itype .LSH 7 (.num 31)),
    insn (.ldi 4 (.sym .quoteAsk)),
    insn (.stor 7 4),
    insn (.jump .UC 15),
    label .doBuy,
    insn (.ldi 4 (.sym .cfgEnable)),
    insn (.load 8 4),
    insn (.rtype .CMP 8 0),
    insn (.branch .EQ (.sym .disabledBlock)),
    insn (.ldi 4 (.sym .cfgMaxPos)),
    insn (.load 8 4),
    insn (.rtype .CMP 13 8),
    insn (.branch .LT (.sym .buyAllowed)),
    insn (.branch .UC (.sym .riskBlock)),
    label .buyAllowed,
    insn (.ldi 7 (.sym .signalBuy)),
    insn (.branch .UC (.sym .emit)),
    label .doSell,
    insn (.ldi 4 (.sym .cfgEnable)),
    insn (.load 8 4),
    insn (.rtype .CMP 8 0),
    insn (.branch .EQ (.sym .disabledBlock)),
    insn (.ldi 4 (.sym .cfgMaxPos)),
    insn (.load 8 4),
    insn (.rtype .XOR 7 7),
    insn (.rtype .SUB 7 8),
    insn (.rtype .CMP 7 13),
    insn (.branch .LT (.sym .sellAllowed)),
    insn (.branch .UC (.sym .riskBlock)),
    label .sellAllowed,
    insn (.ldi 7 (.sym .signalSell)),
    insn (.branch .UC (.sym .emit)),
    label .emit,
    insn (.ldi 4 (.sym .signal)),
    insn (.stor 7 4),
    insn (.ldi 4 (.sym .signalTick)),
    insn (.stor 11 4),
    insn (.ldi 7 (.sym .statusRunning)),
    insn (.ldi 4 (.sym .status)),
    insn (.stor 7 4),
    insn (.ldi 4 (.sym .signalSeq)),
    insn (.load 8 4),
    insn (.rtype .ADD 8 1),
    insn (.stor 8 4),
    insn (.jump .UC 15),
    label .riskBlock,
    insn (.ldi 7 (.sym .statusRiskBlocked)),
    insn (.branch .UC (.sym .countReject)),
    label .disabledBlock,
    insn (.ldi 7 (.sym .statusDisabled)),
    label .countReject,
    insn (.rtype .ADD 7 1),
    insn (.ldi 4 (.sym .status)),
    insn (.stor 7 4),
    insn (.ldi 4 (.sym .rejects)),
    insn (.load 8 4),
    insn (.rtype .ADD 8 1),
    insn (.stor 8 4),
    insn (.jump .UC 15),
    label .doRestart,
    insn (.rtype .XOR 8 8),
    insn (.stor 8 4),
    insn (.ldi 4 (.sym .init)),
    insn (.jump .UC 4),
    -- datapath mismatch
    label .isaMismatch,
    insn (.rtype .ADD 12 1),
    insn (.stor 12 3),
    insn (.ldi 4 (.sym .isaMismatch)),
    insn (.jump .UC 4) ]

end Program

end Fmma
