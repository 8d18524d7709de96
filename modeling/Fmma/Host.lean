import Fmma.Protocol

/-!
# The host driver

`fmma_fpga.c`, the ARM side of the shared RAM. A call of the driver is the list of the stores it
makes, in program order: each is a store of one word through a volatile pointer, with barriers
where the order matters. What the handle itself remembers is in `Fpga`. Log messages are left
out, and so is the heartbeat the handle keeps for the watchdog.
-/

namespace Fmma

/-- `struct fmma_fpga`: the counters of the handle. -/
structure Fpga where
  tickSeq : Word
  signalSeq : Word
  fillSeq : Word
  deriving DecidableEq

/-- `struct fmma_fpga_config`. -/
structure FpgaConfig where
  threshold : Word
  maxPosition : Word
  startPosition : Word
  halfSpread : Word
  skew : Word
  deriving DecidableEq

/-- `struct fmma_signal`. -/
structure Signal where
  side : Word
  tick : Word
  seq : Word
  missed : Word
  deriving DecidableEq

/-! ### Configuration and start-up -/

/-- `fmma_fpga_push_config`. -/
def pushConfig (cfg : FpgaConfig) : List (Addr × Word) :=
  [(cfgThresh, cfg.threshold), (cfgMaxPos, cfg.maxPosition), (cfgPosition, cfg.startPosition),
    (cfgHalfSpread, cfg.halfSpread), (cfgSkew, cfg.skew)]

/-- `fmma_fpga_set_enabled`. -/
def setEnabled (enabled : Bool) : List (Addr × Word) :=
  [(cfgEnable, if enabled then 1 else 0)]

/-- The stores of `write_program`: the words of the image in ascending order, the entry word
last. -/
def writeProgram (image : List Word) : List (Addr × Word) :=
  (image.zipIdx.tail.map fun w => (BitVec.ofNat 10 (8 + w.2), w.1)) ++
    (image.take 1).map fun w => (programBase, w)

/-- The stores with which `wait_for_cpu` asks for a restart. -/
def requestRestart : List (Addr × Word) :=
  [(fwVersion, 0), (cfgRestart, 1)]

/-- The counters `wait_for_cpu` adopts from the RAM once the CPU is running. -/
def Fpga.adopt (mem : Addr → Word) : Fpga where
  tickSeq := mem Fmma.tickSeq &&& ~~~1
  signalSeq := mem Fmma.signalSeq
  fillSeq := mem Fmma.fillSeq

/-- The stores of `fmma_fpga_load`, up to the wait for the CPU. An image that does not fit the
program area is refused before its first word is stored. -/
def load (cfg : FpgaConfig) (image : List Word) : List (Addr × Word) :=
  [(cfgEnable, 0), (cfgRestart, 0)] ++ pushConfig cfg ++
    if 8 + image.length ≤ 256 then writeProgram image ++ requestRestart else []

/-! ### Runtime protocol -/

namespace Fpga

/-- `fmma_fpga_publish_tick`: odd counter, payload, even counter. -/
def publishTick (f : Fpga) (bid ask bidSize askSize : Word) : List (Addr × Word) × Fpga :=
  let odd := f.tickSeq + 1
  ([(Fmma.tickSeq, odd), (Fmma.bid, bid), (Fmma.ask, ask), (Fmma.bidSize, bidSize),
    (Fmma.askSize, askSize), (Fmma.tickSeq, odd + 1)], { f with tickSeq := odd + 1 })

/-- `fmma_fpga_report_fill`: the mailbox, then the counter. -/
def reportFill (f : Fpga) (side qty : Word) : List (Addr × Word) × Fpga :=
  ([(fillSide, side), (fillQty, qty), (Fmma.fillSeq, f.fillSeq + 1)],
    { f with fillSeq := f.fillSeq + 1 })

/-- The end of `fmma_fpga_poll_signal`: the record for the words it read, and the counter it
keeps. -/
def received (f : Fpga) (seq side tick : Word) : Signal × Fpga :=
  (⟨side, tick, seq, seq - f.signalSeq - 1⟩, { f with signalSeq := seq })

end Fpga

end Fmma
