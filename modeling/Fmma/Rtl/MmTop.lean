import Fmma.Rtl.AxiAnswers
import Fmma.Rtl.HostRead

/-!
# The control plane and the books

`mm_top.v` and `mm_core.v` as far as the books go: one bank for each symbol behind the AXI4-Lite
slave. The quote engines read the tops of the books and touch nothing of this.
-/

namespace Fmma

/-- The parameters of `mm_top`: `LEVELS` is a power of two, as `book_bank` wants it, and every
symbol has its window in the address space. -/
structure MmParams extends AxiParams where
  wselW : ℕ
  levels_eq : levels = 2 ^ (wselW + 5)
  windows : toAxiParams.symW + toAxiParams.winW + 1 ≤ aw

/-- The inputs of `mm_top` in one cycle. -/
structure MmIn (p : MmParams) where
  awaddr : BitVec p.aw
  awvalid : Bool
  wdata : BitVec 32
  wvalid : Bool
  bready : Bool
  araddr : BitVec p.aw
  arvalid : Bool
  rready : Bool
  updValid : Bool
  updSym : BitVec p.symW
  updSide : Bool
  updIdx : BitVec (p.wselW + 5)
  updDelta : BitVec p.qtyW

/-- The slave and the banks. There is a bank for every number of a symbol, and those that are not
below `N_SYM` do not count. -/
structure MmTop (p : MmParams) where
  ctrl : AxiCtrl p.toAxiParams
  bank : BitVec p.symW → BookBank p.wselW p.qtyW

namespace MmTop

variable {p : MmParams}

/-- The symbols. -/
def symbols (p : MmParams) : List (BitVec p.symW) :=
  (List.range p.nSym).map (BitVec.ofNat p.symW)

/-- What goes into the bank of a symbol. -/
def bankIn (t : MmTop p) (i : MmIn p) (s : BitVec p.symW) : BookIn p.wselW p.qtyW where
  updValid := i.updValid && i.updSym == s
  updSide := i.updSide
  updIdx := i.updIdx
  updDelta := i.updDelta
  hostRdReq := t.ctrl.hostRdReq && t.ctrl.hostRdSym == s
  hostRdAddr := t.ctrl.hostRdAddr.setWidth (p.wselW + 5 + 1)

/-- `host_rd_ack`. -/
def hostRdAck (t : MmTop p) : Bool := (symbols p).any fun s => (t.bank s).hostRdAck

/-- What goes into the slave. -/
def axiIn (t : MmTop p) (i : MmIn p) : AxiIn p.toAxiParams where
  awaddr := i.awaddr
  awvalid := i.awvalid
  wdata := i.wdata
  wvalid := i.wvalid
  bready := i.bready
  araddr := i.araddr
  arvalid := i.arvalid
  rready := i.rready
  coreReady := (symbols p).all fun s => (t.bank s).ready
  hostRdAck := t.hostRdAck
  hostRdData := (t.bank t.ctrl.hostRdSym).hostRdData
  tobBidPresent := fun s => (t.bank s).bidPresent
  tobAskPresent := fun s => (t.bank s).askPresent
  tobBestBid := fun s => (t.bank s).bestBid.setWidth p.idxW
  tobBestAsk := fun s => (t.bank s).bestAsk.setWidth p.idxW

/-- A positive edge of `clk`. -/
def edge (rst : Bool) (t : MmTop p) (i : MmIn p) : MmTop p where
  ctrl := t.ctrl.edge rst (t.axiIn i)
  bank := fun s => (t.bank s).edge rst (t.bankIn i s)

/-- The registers after a clock with the reset and `n` clocks without. -/
def afterReset (t : MmTop p) (i : MmIn p) (inp : ℕ → MmIn p) (n : ℕ) : MmTop p :=
  Clocked.after (edge false) (edge true t i) inp n

variable (t : MmTop p) (i : MmIn p) (inp : ℕ → MmIn p)

/-- What goes into the bank of a symbol in cycle `n`. -/
def bankInAt (s : BitVec p.symW) (n : ℕ) : BookIn p.wselW p.qtyW :=
  (t.afterReset i inp n).bankIn (inp n) s

/-- A bank goes its own way. -/
theorem afterReset_bank (s : BitVec p.symW) (n : ℕ) : (t.afterReset i inp n).bank s =
    (t.bank s).afterReset (t.bankIn i s) (t.bankInAt i inp s) n := by
  induction n with
  | zero => rfl
  | succ n ih =>
    have hedge : (t.afterReset i inp (n + 1)).bank s =
        ((t.afterReset i inp n).bank s).edge false (t.bankInAt i inp s n) := rfl
    rw [hedge, ih]
    rfl

end MmTop

/-! ### The symbol of a book read -/

/-- A read of the book is for a symbol that there is. -/
theorem MmParams.sym_lt (p : MmParams) {a : BitVec p.aw} (h : (p.decode a).kind = .book) :
    (p.decode a).sym.toNat < p.nSym := by
  have hsym : (p.decode a).sym = a.extractLsb' p.winW p.symW := by
    simp only [AxiParams.decode]
    split_ifs <;> rfl
  have hlt : (a.extractLsb' p.winW (p.aw - 1 - p.winW)).toNat < p.nSym := by
    by_contra hge
    simp only [AxiParams.decode, if_neg hge] at h
    split_ifs at h
  have hwindows := p.windows
  rw [BitVec.extractLsb'_toNat] at hlt
  rw [hsym, BitVec.extractLsb'_toNat]
  have hdvd : 2 ^ p.symW ∣ 2 ^ (p.aw - 1 - p.winW) := Nat.pow_dvd_pow 2 (by omega)
  rw [← Nat.mod_mod_of_dvd _ hdvd]
  exact (Nat.mod_le _ _).trans_lt hlt

end Fmma
