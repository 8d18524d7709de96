import Fmma.Isa

/-!
# The shared memory map

`fmma_protocol.h` / `fmma_protocol.inc`, both generated from `protocol.py`: the word indices
of the input block (host to fabric) and of the output block (fabric to host), and the
constants the two sides exchange in them.
-/

namespace Fmma

/-! ### Layout -/

/-- `PROGRAM_BASE`: where the program is loaded and where the PC starts. -/
@[simp] abbrev programBase : Addr := 8

/-- `PROGRAM_LIMIT`, one past the program area, which is `INPUT_BASE`, the first word of the
input block. -/
@[simp] abbrev inputBase : Addr := 256

/-- `OUTPUT_BASE`, the first word of the output block. -/
@[simp] abbrev outputBase : Addr := 320

/-- `FREE_BASE`, one past the output block. -/
@[simp] abbrev freeBase : Addr := 384

/-! ### Host to fabric -/

@[simp] abbrev tickSeq : Addr := 256
@[simp] abbrev bid : Addr := 257
@[simp] abbrev ask : Addr := 258
@[simp] abbrev bidSize : Addr := 259
@[simp] abbrev askSize : Addr := 260
@[simp] abbrev cfgThresh : Addr := 261
@[simp] abbrev cfgMaxPos : Addr := 262
@[simp] abbrev cfgEnable : Addr := 263
@[simp] abbrev cfgHalfSpread : Addr := 264
@[simp] abbrev cfgSkew : Addr := 265
@[simp] abbrev cfgRestart : Addr := 266
@[simp] abbrev fillSeq : Addr := 267
@[simp] abbrev fillSide : Addr := 268
@[simp] abbrev fillQty : Addr := 269
@[simp] abbrev cfgPosition : Addr := 270

/-! ### Fabric to host -/

@[simp] abbrev heartbeat : Addr := 320
@[simp] abbrev signal : Addr := 321
@[simp] abbrev signalTick : Addr := 322
@[simp] abbrev signalSeq : Addr := 323
@[simp] abbrev position : Addr := 324
@[simp] abbrev status : Addr := 325
@[simp] abbrev rejects : Addr := 326
@[simp] abbrev fwVersion : Addr := 327
@[simp] abbrev quoteBid : Addr := 328
@[simp] abbrev quoteAsk : Addr := 329

/-! ### Values -/

/-- `SIGNAL_NONE`. -/
@[simp] abbrev signalNone : Word := 0
/-- `SIGNAL_BUY`. -/
@[simp] abbrev signalBuy : Word := 1
/-- `SIGNAL_SELL`. -/
@[simp] abbrev signalSell : Word := 2
/-- `FILL_BOUGHT`. -/
@[simp] abbrev fillBought : Word := 1
/-- `FILL_SOLD`. -/
@[simp] abbrev fillSold : Word := 2
/-- `STATUS_RUNNING`. -/
@[simp] abbrev statusRunning : Word := 1
/-- `STATUS_RISK_BLOCKED`. -/
@[simp] abbrev statusRiskBlocked : Word := 4
/-- `STATUS_DISABLED`. -/
@[simp] abbrev statusDisabled : Word := 8
/-- `PROTOCOL_VERSION`. -/
@[simp] abbrev protocolVersion : Word := 2

end Fmma
