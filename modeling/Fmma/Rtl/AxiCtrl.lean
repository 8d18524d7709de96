import Fmma.Lib.Clocked
import Mathlib.Data.Nat.Log

/-!
# The AXI4-Lite slave

`axi_ctrl.v`: every symbol's configuration, skew table and book RAM in one address space. The
write channel takes address and data together; the read channel has one read outstanding, and a
read of the book waits for the bank.
-/

namespace Fmma

/-- The parameters of `axi_ctrl`, as far as it elaborates: `SYM_W` and the part-selects
`off[WIN_W-2:9]` and `a[AW-2:WIN_W]` must not be empty. -/
structure AxiParams where
  nSym : ℕ
  levels : ℕ
  qtyW : ℕ
  posW : ℕ
  aw : ℕ
  two_le_nSym : 2 ≤ nSym
  le_levels : 128 ≤ levels
  le_aw : Nat.clog 2 levels + 6 ≤ aw

namespace AxiParams

/-- `IDX_W`. -/
def idxW (p : AxiParams) : ℕ := Nat.clog 2 p.levels

/-- `SYM_W`. -/
def symW (p : AxiParams) : ℕ := Nat.clog 2 p.nSym

/-- `WIN_W`, the logarithm of the per-symbol stride. -/
def winW (p : AxiParams) : ℕ := p.idxW + 4

end AxiParams

/-- `OKAY`. -/
abbrev okay : BitVec 2 := 0

/-- `SLVERR`. -/
abbrev slverr : BitVec 2 := 2

/-- `K_NONE` (unmapped), `K_GREG` (global register), `K_SREG` (per-symbol register), `K_LUT` (skew
table entry), `K_BOOK` (book RAM word). -/
inductive AxiKind
  | none
  | greg
  | sreg
  | lut
  | book
  deriving DecidableEq

/-- A decoded address, `{kind, symbol, index}`. -/
structure AxiTarget (p : AxiParams) where
  kind : AxiKind
  sym : BitVec p.symW
  idx : BitVec (p.idxW + 1)

/-- `decode`. -/
def AxiParams.decode (p : AxiParams) (a : BitVec p.aw) : AxiTarget p :=
  let s := a.extractLsb' p.winW p.symW
  let off := a.extractLsb' 0 p.winW
  if a.getLsbD (p.aw - 1) = false then
    if a.extractLsb' 8 (p.aw - 9) = 0 then ⟨.greg, s, (a.extractLsb' 2 6).setWidth _⟩
    else ⟨.none, s, 0⟩
  else if (a.extractLsb' p.winW (p.aw - 1 - p.winW)).toNat < p.nSym then
    if off.getLsbD (p.winW - 1) then ⟨.book, s, off.extractLsb' 2 (p.idxW + 1)⟩
    else if off.extractLsb' 9 (p.winW - 10) = 0 then
      ⟨if off.getLsbD 8 then .lut else .sreg, s, (off.extractLsb' 2 6).setWidth _⟩
    else ⟨.none, s, 0⟩
  else ⟨.none, s, 0⟩

/-- The inputs of `axi_ctrl` in one cycle (`WSTRB` is ignored). -/
structure AxiIn (p : AxiParams) where
  awaddr : BitVec p.aw
  awvalid : Bool
  wdata : BitVec 32
  wvalid : Bool
  bready : Bool
  araddr : BitVec p.aw
  arvalid : Bool
  rready : Bool
  coreReady : Bool
  hostRdAck : Bool
  hostRdData : BitVec p.qtyW
  tobBidPresent : BitVec p.symW → Bool
  tobAskPresent : BitVec p.symW → Bool
  tobBestBid : BitVec p.symW → BitVec p.idxW
  tobBestAsk : BitVec p.symW → BitVec p.idxW

/-- The registers of `axi_ctrl`. -/
structure AxiCtrl (p : AxiParams) where
  bvalid : Bool
  bresp : BitVec 2
  quoteEnable : Bool
  hsR : BitVec p.symW → BitVec 8
  limR : BitVec p.symW → BitVec p.posW
  cfgSym : BitVec p.symW
  cfgLutWe : Bool
  cfgLutAddr : BitVec 6
  cfgLutData : BitVec 8
  cfgLutSwap : Bool
  rdBusy : Bool
  rK : AxiKind
  rSym : BitVec p.symW
  rI : BitVec (p.idxW + 1)
  rvalid : Bool
  rresp : BitVec 2
  rdata : BitVec 32
  hostRdReq : Bool
  hostRdSym : BitVec p.symW
  hostRdAddr : BitVec (p.idxW + 1)

namespace AxiCtrl

variable {p : AxiParams}

/-! ### The write channel -/

/-- `wr_fire`: a write is accepted. -/
def wrFire (s : AxiCtrl p) (i : AxiIn p) : Bool := i.awvalid && i.wvalid && !s.bvalid

/-- What an accepted write does. -/
def write (s : AxiCtrl p) (d : AxiTarget p) (wdata : BitVec 32) : AxiCtrl p :=
  let s := { s with
    bvalid := true
    bresp := okay }
  match d.kind with
  | .greg =>
    if d.idx = 1 then { s with quoteEnable := wdata.getLsbD 0 }
    else if d.idx = 0 ∨ d.idx = 2 then s
    else { s with bresp := slverr }
  | .sreg =>
    if d.idx = 0 then s
    else if d.idx = 1 then { s with hsR := Function.update s.hsR d.sym (wdata.setWidth 8) }
    else if d.idx = 2 then { s with limR := Function.update s.limR d.sym (wdata.setWidth p.posW) }
    else if d.idx = 3 then { s with
      cfgSym := d.sym
      cfgLutSwap := true }
    else { s with bresp := slverr }
  | .lut => { s with
      cfgSym := d.sym
      cfgLutAddr := d.idx.setWidth 6
      cfgLutData := wdata.setWidth 8
      cfgLutWe := true }
  | .book | .none => { s with bresp := slverr }

/-- The write channel at a positive edge of `clk`. -/
def writeEdge (rst : Bool) (s : AxiCtrl p) (i : AxiIn p) : AxiCtrl p :=
  let t := { s with
    cfgLutWe := false
    cfgLutSwap := false }
  if rst then { t with
    bvalid := false
    bresp := okay
    quoteEnable := false
    hsR := fun _ => 0
    limR := fun _ => 0 }
  else
    let t := if s.bvalid && i.bready then { t with bvalid := false } else t
    if s.wrFire i then t.write (p.decode i.awaddr) i.wdata else t

/-! ### The read channel -/

/-- `s_axi_arready`. -/
def arready (s : AxiCtrl p) : Bool := !s.rdBusy && !s.rvalid

/-- `ar_fire`: a read is accepted. -/
def arFire (s : AxiCtrl p) (i : AxiIn p) : Bool := i.arvalid && s.arready

/-- `tob_word`: all top-of-book fields in one word. -/
def tobWord (s : AxiCtrl p) (i : AxiIn p) : BitVec 32 :=
  (BitVec.ofBool (i.tobBidPresent s.rSym)).setWidth 32 <<< 31 |||
    (BitVec.ofBool (i.tobAskPresent s.rSym)).setWidth 32 <<< 30 |||
    (i.tobBestAsk s.rSym).setWidth 32 <<< 16 ||| (i.tobBestBid s.rSym).setWidth 32

/-- What the read of a register returns: data and response. -/
def readReg (s : AxiCtrl p) (i : AxiIn p) : BitVec 32 × BitVec 2 :=
  match s.rK with
  | .greg =>
    if s.rI = 0 then (0x4D4D0100, okay)
    else if s.rI = 1 then ((BitVec.ofBool s.quoteEnable).setWidth 32, okay)
    else if s.rI = 2 then
      ((BitVec.ofNat 8 p.nSym).setWidth 32 <<< 16 ||| (BitVec.ofBool i.coreReady).setWidth 32, okay)
    else (0, slverr)
  | .sreg =>
    if s.rI = 0 then (s.tobWord i, okay)
    else if s.rI = 1 then ((s.hsR s.rSym).setWidth 32, okay)
    else if s.rI = 2 then ((s.limR s.rSym).setWidth 32, okay)
    else if s.rI = 3 then (0, okay)
    else (0, slverr)
  | .lut => (0, okay)
  | .book | .none => (0, slverr)

/-- The read channel at a positive edge of `clk`: `s` has the registers before the edge, `t` those
of the write channel after it. -/
def readEdge (rst : Bool) (s : AxiCtrl p) (i : AxiIn p) (t : AxiCtrl p) : AxiCtrl p :=
  if rst then { t with
    rdBusy := false
    rvalid := false
    rresp := okay
    hostRdReq := false }
  else
    let t := if s.rvalid && i.rready then { t with rvalid := false } else t
    if s.arFire i then
      let d := p.decode i.araddr
      let t := { t with
        rdBusy := true
        rK := d.kind
        rSym := d.sym
        rI := d.idx }
      if d.kind = .book then { t with
        hostRdReq := true
        hostRdSym := d.sym
        hostRdAddr := d.idx }
      else t
    else if s.rdBusy then
      if s.rK = .book then
        if i.hostRdAck then { t with
          hostRdReq := false
          rdBusy := false
          rvalid := true
          rresp := okay
          rdata := i.hostRdData.setWidth 32 }
        else t
      else { t with
        rdBusy := false
        rvalid := true
        rresp := (s.readReg i).2
        rdata := (s.readReg i).1 }
    else t

/-- A positive edge of `clk`. -/
def edge (rst : Bool) (s : AxiCtrl p) (i : AxiIn p) : AxiCtrl p :=
  readEdge rst s i (writeEdge rst s i)

end AxiCtrl

end Fmma
