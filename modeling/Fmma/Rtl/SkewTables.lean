import Fmma.Lib.DoubleBuffer
import Fmma.Rtl.MmTop
import Fmma.Rtl.QuoteEngine

/-!
# The skew tables

`mm_top.v` with the quote engines: the path of a write from the AXI4-Lite slave to the skew table
of a symbol. `axi_ctrl` keeps an accepted write for a cycle in registers that serve all symbols, and
`mm_core` hands it to the engine of `cfg_sym`. Each engine has its table in a double buffer.
-/

namespace Fmma

open DoubleBuffer

/-- What is done to a skew table. -/
abbrev SkewOp : Type := Op (BitVec 6) (BitVec 8)

/-- What a write of `w` to the byte address `a` does to the skew table of the symbol `s`, by the
address map: `LUT_SWAP` is word 3 of the window of the symbol, and `SKEW_LUT` begins at word 64. -/
def AxiParams.skewOp (p : AxiParams) (s a : ℕ) (w : BitVec 32) : Option SkewOp :=
  let base := 2 ^ (p.aw - 1) + s * 2 ^ p.winW
  let word := (a - base) / 4
  if s < p.nSym ∧ base ≤ a ∧ a < base + 2 ^ p.winW then
    if word = 3 then some .swap
    else if 64 ≤ word ∧ word < 128 then some (.write (BitVec.ofNat 6 (word - 64)) (w.setWidth 8))
    else none
  else none

/-! ### The quote engine -/

namespace QuoteEngine

variable {idxW : ℕ} {q : QuoteEngine idxW} {i : QuoteIn idxW}

/-- The skew table, in its two copies. The skew of a quote is read from the live one. -/
def tables (q : QuoteEngine idxW) : DoubleBuffer (BitVec 6) (BitVec 8) where
  live := fun k => q.skewLut (BitVec.cons q.liveBuf k)
  inactive := fun k => q.skewLut (BitVec.cons (!q.liveBuf) k)

/-- What the engine is told to do to it. -/
def told (i : QuoteIn idxW) : Option SkewOp :=
  if i.cfgLutWe then some (.write i.cfgLutAddr i.cfgLutData)
  else if i.cfgLutSwap then some .swap
  else none

theorem cons_inj {b c : Bool} {k j : BitVec 6} (h : BitVec.cons b k = BitVec.cons c j) :
    b = c ∧ k = j := by
  have hmsb := congrArg BitVec.msb h
  have hrest := congrArg (BitVec.setWidth 6) h
  rw [BitVec.msb_cons, BitVec.msb_cons] at hmsb
  rw [BitVec.setWidth_cons, BitVec.setWidth_cons] at hrest
  exact ⟨hmsb, hrest⟩

/-- A write goes to the inactive copy. -/
theorem tables_write (q : QuoteEngine idxW) (k : BitVec 6) (v : BitVec 8) :
    ({ q with skewLut := Function.update q.skewLut (BitVec.cons (!q.liveBuf) k) v } :
      QuoteEngine idxW).tables = q.tables.apply (.write k v) := by
  ext j
  · have hne : BitVec.cons q.liveBuf j ≠ BitVec.cons (!q.liveBuf) k := by
      intro heq
      have := (cons_inj heq).1
      cases hb : q.liveBuf <;> rw [hb] at this <;> cases this
    simp only [tables, DoubleBuffer.apply, Function.update_of_ne hne]
  · by_cases hj : j = k
    · rw [hj]
      simp [tables, DoubleBuffer.apply]
    · have hne : BitVec.cons (!q.liveBuf) j ≠ BitVec.cons (!q.liveBuf) k :=
        fun heq => hj (cons_inj heq).2
      simp only [tables, DoubleBuffer.apply, Function.update_of_ne hne, Function.update_of_ne hj]

/-- **An edge of the engine**: it does what it is told to, if that is one thing. -/
theorem tables_edge (h : (i.cfgLutWe && i.cfgLutSwap) = false) :
    (q.edge false i).tables = (told i).elim q.tables q.tables.apply := by
  cases hwe : i.cfgLutWe with
  | true =>
    have hswap : i.cfgLutSwap = false := by
      rw [hwe] at h
      exact h
    have hwrite := tables_write q i.cfgLutAddr i.cfgLutData
    simp only [told, hwe, if_true, Option.elim_some]
    rw [← hwrite]
    simp only [tables, edge, hwe, hswap]
    rfl
  | false =>
    cases hswap : i.cfgLutSwap with
    | true =>
      simp only [told, hwe, hswap, tables, edge]
      simp [DoubleBuffer.apply]
    | false =>
      simp only [told, hwe, hswap, tables, edge]
      simp

end QuoteEngine

/-! ### The decoder -/

/-- What a decoded write does to the skew table of the symbol `s`. -/
def AxiTarget.skewOp {p : AxiParams} (d : AxiTarget p) (s : BitVec p.symW) (w : BitVec 32) :
    Option SkewOp :=
  if d.sym = s then
    match d.kind with
    | .lut => some (.write (d.idx.setWidth 6) (w.setWidth 8))
    | .sreg => if d.idx = 3 then some .swap else none
    | _ => none
  else none

/-- An address in another window. -/
theorem AxiParams.skewOp_of_ne {p : AxiParams} {s s' o : ℕ} (ho : o < 2 ^ p.winW) (h : s ≠ s')
    (w : BitVec 32) : p.skewOp s (2 ^ (p.aw - 1) + s' * 2 ^ p.winW + o) w = none := by
  rw [skewOp, if_neg]
  rintro ⟨-, hlo, hhi⟩
  rcases Nat.lt_or_gt_of_ne h with hlt | hgt
  · have := Nat.mul_le_mul_right (2 ^ p.winW) (Nat.succ_le_of_lt hlt)
    rw [Nat.succ_mul] at this
    omega
  · have := Nat.mul_le_mul_right (2 ^ p.winW) (Nat.succ_le_of_lt hgt)
    rw [Nat.succ_mul] at this
    omega

/-- An address in the window of the symbol. -/
theorem AxiParams.skewOp_self {p : AxiParams} {s o : ℕ} (hs : s < p.nSym) (ho : o < 2 ^ p.winW)
    (w : BitVec 32) : p.skewOp s (2 ^ (p.aw - 1) + s * 2 ^ p.winW + o) w =
      if o / 4 = 3 then some .swap
      else if 64 ≤ o / 4 ∧ o / 4 < 128 then
        some (.write (BitVec.ofNat 6 (o / 4 - 64)) (w.setWidth 8))
      else none := by
  rw [skewOp, if_pos ⟨hs, Nat.le_add_right _ _, Nat.add_lt_add_left ho _⟩, Nat.add_sub_cancel_left]

/-- A target that is neither a register nor an entry of a table. -/
theorem AxiTarget.skewOp_of_kind {p : AxiParams} {d : AxiTarget p} (hlut : d.kind ≠ .lut)
    (hsreg : d.kind ≠ .sreg) (s : BitVec p.symW) (w : BitVec 32) : d.skewOp s w = none := by
  obtain ⟨kind, sym, idx⟩ := d
  cases kind with
  | lut => exact absurd rfl hlut
  | sreg => exact absurd rfl hsreg
  | none | greg | book => exact ite_self none

/-- The decoder in the window of the symbol. -/
theorem MmParams.skewOp_decode_self (p : MmParams) {a : BitVec p.aw} {s : BitVec p.symW} {o : ℕ}
    (hs : s.toNat < p.nSym) (ho : o < 2 ^ p.winW)
    (ha : a.toNat = 2 ^ (p.aw - 1) + s.toNat * 2 ^ p.winW + o) (w : BitVec 32) :
    (p.decode a).skewOp s w =
      if o / 4 = 3 then some .swap
      else if 64 ≤ o / 4 ∧ o / 4 < 128 then
        some (.write (BitVec.ofNat 6 (o / 4 - 64)) (w.setWidth 8))
      else none := by
  have hhalf := p.toAxiParams.le_half_window
  have hsym : (p.decode a).sym = s :=
    BitVec.eq_of_toNat_eq (AxiParams.decode_sym p.windows hs ho ha)
  have hs' : s.toNat < 2 ^ (p.aw - 1 - p.winW) := by
    have hwindows := p.windows
    exact s.isLt.trans_le (Nat.pow_le_pow_right Nat.two_pos (by omega))
  obtain ⟨hkind, hindex⟩ := AxiParams.decode_symbol hs' ho ha
  rw [if_pos hs] at hkind
  rw [AxiTarget.skewOp, if_pos hsym, hkind]
  by_cases hregs : o < 512
  · have hbook : ¬2 ^ (p.winW - 1) ≤ o := by omega
    have hidx' : (p.decode a).idx.toNat = o / 4 % 64 := hindex hs hregs (not_le.mp hbook)
    rw [if_neg hbook, if_pos hregs]
    by_cases hlut : 256 ≤ o
    · -- an entry of the table
      have hentry : (p.decode a).idx.setWidth 6 = BitVec.ofNat 6 (o / 4 - 64) := by
        rw [← BitVec.toNat_inj, BitVec.toNat_setWidth, BitVec.toNat_ofNat, hidx']
        omega
      have h3 : ¬o / 4 = 3 := by omega
      have h64 : 64 ≤ o / 4 ∧ o / 4 < 128 := by omega
      rw [if_pos hlut, if_neg h3, if_pos h64]
      simp only [hentry]
    · -- a register
      have hswap : (p.decode a).idx = 3 ↔ o / 4 = 3 := by
        have hreg := AxiCtrl.idx_eq_iff (x := (p.decode a).idx) (k := 3) (by decide)
        rw [hidx'] at hreg
        exact hreg.trans (by omega)
      have h64 : ¬(64 ≤ o / 4 ∧ o / 4 < 128) := by omega
      rw [if_neg hlut, if_neg h64]
      simp only [hswap]
  · have h3 : ¬o / 4 = 3 := by omega
    have h64 : ¬(64 ≤ o / 4 ∧ o / 4 < 128) := by omega
    rw [if_neg hregs, if_neg h3, if_neg h64]
    split_ifs <;> rfl

/-- **The decoder follows the map** in what concerns the skew tables. -/
theorem MmParams.skewOp_decode (p : MmParams) (a : BitVec p.aw) (s : BitVec p.symW)
    (w : BitVec 32) : (p.decode a).skewOp s w = p.skewOp s.toNat a.toNat w := by
  rcases Nat.lt_or_ge a.toNat (2 ^ (p.aw - 1)) with hlo | hhi
  · -- the global registers
    have hkind := (AxiParams.decode_global hlo).1
    rw [AxiTarget.skewOp_of_kind (by grind) (by grind), AxiParams.skewOp, if_neg]
    rintro ⟨-, hbase, -⟩
    omega
  · obtain ⟨s', o, hs', ho, ha⟩ := AxiParams.exists_window hhi
    by_cases hn : s' < p.nSym
    · by_cases heq : s.toNat = s'
      · rw [p.skewOp_decode_self (heq ▸ hn) ho (heq ▸ ha), ha, heq, AxiParams.skewOp_self hn ho]
      · -- the window of another symbol
        have hother : (p.decode a).sym ≠ s := by
          rintro rfl
          exact heq (AxiParams.decode_sym p.windows hn ho ha)
        rw [ha, AxiParams.skewOp_of_ne ho heq, AxiTarget.skewOp, if_neg hother]
    · have hkind := (AxiParams.decode_symbol hs' ho ha).1
      rw [if_neg hn] at hkind
      rw [AxiTarget.skewOp_of_kind (by grind) (by grind), AxiParams.skewOp, if_neg]
      rintro ⟨hlt, hlo, hhi'⟩
      have hbelow : s.toNat < s' := hlt.trans_le (not_lt.mp hn)
      have hle := Nat.mul_le_mul_right (2 ^ p.winW) (Nat.succ_le_of_lt hbelow)
      rw [Nat.succ_mul] at hle
      omega

/-! ### The slave -/

namespace AxiCtrl

variable {p : AxiParams}

/-- What the engine of the symbol `s` is told in the next cycle, by the registers that all symbols
share. -/
def cfgOp (c : AxiCtrl p) (s : BitVec p.symW) : Option SkewOp :=
  if c.cfgSym = s then
    if c.cfgLutWe then some (.write c.cfgLutAddr c.cfgLutData)
    else if c.cfgLutSwap then some .swap
    else none
  else none

/-- The registers have `o`, for the symbol that each `o` is about. -/
structure Holds (c : AxiCtrl p) (o : BitVec p.symW → Option SkewOp) : Prop where
  single : (c.cfgLutWe && c.cfgLutSwap) = false
  cfgOp : ∀ s, c.cfgOp s = o s

/-- The read channel leaves these registers alone. -/
theorem Holds.readEdge {c d : AxiCtrl p} {o : BitVec p.symW → Option SkewOp} (h : d.Holds o)
    (rst : Bool) (i : AxiIn p) : (readEdge rst c i d).Holds o := by
  simp only [AxiCtrl.readEdge]
  split_ifs <;> exact ⟨h.single, h.cfgOp⟩

/-- Without a pulse there is nothing to be done. -/
theorem Holds.of_idle {c : AxiCtrl p} {o : BitVec p.symW → Option SkewOp}
    (hwe : c.cfgLutWe = false) (hswap : c.cfgLutSwap = false) (ho : ∀ s, o s = none) :
    c.Holds o where
  single := by rw [hwe, hswap]; rfl
  cfgOp s := by simp [AxiCtrl.cfgOp, hwe, hswap, ho s]

/-- A write keeps in them what it does. -/
theorem Holds.write {c : AxiCtrl p} (hwe : c.cfgLutWe = false) (hswap : c.cfgLutSwap = false)
    (d : AxiTarget p) (w : BitVec 32) : (c.write d w).Holds fun s => d.skewOp s w := by
  obtain ⟨kind, sym, idx⟩ := d
  cases kind with
  | none => exact .of_idle hwe hswap fun s => ite_self none
  | book => exact .of_idle hwe hswap fun s => ite_self none
  | greg =>
    simp only [AxiCtrl.write]
    split_ifs <;> exact .of_idle hwe hswap fun s => ite_self none
  | lut =>
    refine ⟨?_, fun s => ?_⟩
    · simp [AxiCtrl.write, hswap]
    · simp [AxiCtrl.write, AxiCtrl.cfgOp, AxiTarget.skewOp]
  | sreg =>
    by_cases h3 : idx = 3
    · -- it is none of the registers that come before
      have hidx : idx.toNat = 3 := (idx_eq_iff (by decide : 3 < 4)).mp h3
      have hne : ∀ k, k < 3 → idx ≠ BitVec.ofNat _ k := by
        intro k hk heq
        have := (idx_eq_iff (by omega : k < 4)).mp heq
        omega
      have h0 : idx ≠ 0 := hne 0 (by decide)
      have h1 : idx ≠ 1 := hne 1 (by decide)
      have h2 : idx ≠ 2 := hne 2 (by decide)
      simp only [AxiCtrl.write, if_neg h0, if_neg h1, if_neg h2, if_pos h3]
      refine ⟨?_, fun s => ?_⟩
      · rw [hwe]
        rfl
      · simp only [AxiCtrl.cfgOp, AxiTarget.skewOp, hwe, if_pos h3]
        rfl
    · have ho : ∀ s, (⟨.sreg, sym, idx⟩ : AxiTarget p).skewOp s w = none := by
        intro s
        simp only [AxiTarget.skewOp, if_neg h3, ite_self]
      simp only [AxiCtrl.write, if_neg h3]
      split_ifs <;> exact .of_idle hwe hswap ho

/-- **An edge of the slave**: its registers hold what the accepted write does. -/
theorem edge_holds (c : AxiCtrl p) (i : AxiIn p) : (c.edge false i).Holds fun s =>
    if c.wrFire i then (p.decode i.awaddr).skewOp s i.wdata else none := by
  refine Holds.readEdge ?_ false i
  simp only [writeEdge, Bool.false_eq_true, if_false]
  cases c.wrFire i with
  | true =>
    simp only [if_true]
    refine Holds.write ?_ ?_ _ _
    · split_ifs <;> rfl
    · split_ifs <;> rfl
  | false =>
    refine Holds.of_idle ?_ ?_ fun s => rfl
    · simp only [Bool.false_eq_true, if_false]
      split_ifs <;> rfl
    · simp only [Bool.false_eq_true, if_false]
      split_ifs <;> rfl

/-- The reset clears them. -/
theorem reset_holds (c : AxiCtrl p) (i : AxiIn p) : (c.edge true i).Holds fun _ => none :=
  (Holds.of_idle rfl rfl fun _ => rfl : (writeEdge true c i).Holds fun _ => none).readEdge true i

end AxiCtrl

/-! ### The slave and the engines -/

/-- The parameters of `mm_top` with the width that the engines have for a position. -/
structure QuotingParams extends MmParams where
  posW_eq : posW = 32

/-- The inputs of `mm_top` in one cycle, with the inventory. -/
structure QuotingIn (p : QuotingParams) extends MmIn p.toMmParams where
  position : BitVec p.symW → BitVec 32
  posUpdate : BitVec p.symW → Bool

/-- The slave, the banks and the engines. There is an engine for every number of a symbol, and
those that are not below `N_SYM` do not count. -/
structure MmQuoting (p : QuotingParams) extends MmTop p.toMmParams where
  engine : BitVec p.symW → QuoteEngine p.idxW

namespace MmQuoting

variable {p : QuotingParams}

/-- What goes into the engine of a symbol. -/
def engineIn (t : MmQuoting p) (i : QuotingIn p) (s : BitVec p.symW) : QuoteIn p.idxW where
  tobValid := (t.bank s).tobValid
  bidPresent := (t.bank s).bidPresent
  askPresent := (t.bank s).askPresent
  bestBid := (t.bank s).bestBid.setWidth p.idxW
  bestAsk := (t.bank s).bestAsk.setWidth p.idxW
  position := i.position s
  posUpdate := i.posUpdate s
  quoteEnable := t.ctrl.quoteEnable
  halfSpread := t.ctrl.hsR s
  posLimit := (t.ctrl.limR s).setWidth 32
  cfgLutWe := t.ctrl.cfgLutWe && t.ctrl.cfgSym == s
  cfgLutAddr := t.ctrl.cfgLutAddr
  cfgLutData := t.ctrl.cfgLutData
  cfgLutSwap := t.ctrl.cfgLutSwap && t.ctrl.cfgSym == s

/-- A positive edge of `clk`. -/
def edge (rst : Bool) (t : MmQuoting p) (i : QuotingIn p) : MmQuoting p where
  toMmTop := t.toMmTop.edge rst i.toMmIn
  engine := fun s => (t.engine s).edge rst (t.engineIn i s)

/-- The registers after a clock with the reset and `n` clocks without. -/
def afterReset (t : MmQuoting p) (i : QuotingIn p) (inp : ℕ → QuotingIn p) (n : ℕ) : MmQuoting p :=
  Clocked.after (edge false) (edge true t i) inp n

/-- The skew table of a symbol. -/
def tables (t : MmQuoting p) (s : BitVec p.symW) : DoubleBuffer (BitVec 6) (BitVec 8) :=
  (t.engine s).tables

/-- What the write that is accepted does to the skew table of a symbol. -/
def accepts (t : MmQuoting p) (i : QuotingIn p) (s : BitVec p.symW) : Option SkewOp :=
  if t.ctrl.wrFire (t.axiIn i.toMmIn) then p.skewOp s.toNat i.awaddr.toNat i.wdata else none

/-- An engine is told what is for its symbol. -/
theorem told_engineIn (t : MmQuoting p) (i : QuotingIn p) (s : BitVec p.symW) :
    QuoteEngine.told (t.engineIn i s) = t.ctrl.cfgOp s := by
  by_cases hsym : t.ctrl.cfgSym = s
  · simp [QuoteEngine.told, engineIn, AxiCtrl.cfgOp, hsym]
  · simp [QuoteEngine.told, engineIn, AxiCtrl.cfgOp, hsym]

/-- **An edge of the tables**: what the slave holds is done. -/
theorem tables_edge {t : MmQuoting p} {o : BitVec p.symW → Option SkewOp} (h : t.ctrl.Holds o)
    (i : QuotingIn p) (s : BitVec p.symW) :
    (t.edge false i).tables s = (o s).elim (t.tables s) (t.tables s).apply := by
  have hsingle : ((t.engineIn i s).cfgLutWe && (t.engineIn i s).cfgLutSwap) = false := by
    have := h.single
    simp only [engineIn]
    grind
  have hedge := QuoteEngine.tables_edge (q := t.engine s) hsingle
  rw [told_engineIn, h.cfgOp s] at hedge
  exact hedge

/-- **An edge of the slave**: it holds what it accepts. -/
theorem edge_holds (t : MmQuoting p) (i : QuotingIn p) :
    (t.edge false i).ctrl.Holds (t.accepts i) := by
  have hslave := AxiCtrl.edge_holds t.ctrl (t.axiIn i.toMmIn)
  refine ⟨hslave.single, fun s => (hslave.cfgOp s).trans ?_⟩
  rw [MmParams.skewOp_decode]
  rfl

section Run

variable (t : MmQuoting p) (i : QuotingIn p) (inp : ℕ → QuotingIn p) (s : BitVec p.symW)

/-- What the write that is accepted in cycle `n` does to the skew table of a symbol. -/
def acceptedAt (n : ℕ) : Option SkewOp := (t.afterReset i inp n).accepts (inp n) s

/-- What the writes accepted before cycle `n` do to the skew table of a symbol, in their order. -/
def opsBefore (n : ℕ) : List SkewOp := (List.range n).filterMap (t.acceptedAt i inp s)

variable {t i inp s}

theorem opsBefore_succ (n : ℕ) : t.opsBefore i inp s (n + 1) =
    t.opsBefore i inp s n ++ (t.acceptedAt i inp s n).toList := by
  rw [opsBefore, List.range_succ, List.filterMap_append, ← opsBefore]
  cases h : t.acceptedAt i inp s n with
  | none => rw [List.filterMap_cons_none h]; rfl
  | some o => rw [List.filterMap_cons_some h]; rfl

/-- A cycle of the tables. -/
theorem tables_succ (n : ℕ) : (t.afterReset i inp (n + 2)).tables s =
    (t.acceptedAt i inp s n).elim ((t.afterReset i inp (n + 1)).tables s)
      ((t.afterReset i inp (n + 1)).tables s).apply :=
  tables_edge (edge_holds (t.afterReset i inp n) (inp n)) (inp (n + 1)) s

/-- **A run of the tables**: all that was accepted for the symbol is done, in its order, and no
more. -/
theorem tables_run (n : ℕ) : (t.afterReset i inp (n + 1)).tables s =
    run ((t.afterReset i inp 0).tables s) (t.opsBefore i inp s n) := by
  induction n with
  | zero =>
    -- the reset cleared what was accepted before it
    have hclear : (t.afterReset i inp 0).ctrl.Holds fun _ => none :=
      AxiCtrl.reset_holds t.ctrl (t.axiIn i.toMmIn)
    exact tables_edge hclear (inp 0) s
  | succ n ih =>
    rw [tables_succ, opsBefore_succ, ih]
    cases t.acceptedAt i inp s n with
    | none => rw [Option.elim_none, Option.toList_none, List.append_nil]
    | some o => rw [Option.elim_some, Option.toList_some, run_concat]

end Run

end MmQuoting

/-- **Live skew tables do not change but in a swap of their own symbol.** From any state, through a
reset and with any inputs after it: the tables of a symbol are those of a double buffer with what
was accepted for it, a cycle after the accepting one; the live table is as it was, if that is not a
swap; and if it is, then each of its entries is the last value that was written since the last swap,
or else what the inactive table held after that swap. -/
theorem skew_tables_atomic {p : QuotingParams} (t : MmQuoting p) (i : QuotingIn p)
    (inp : ℕ → QuotingIn p) (s : BitVec p.symW) (n : ℕ) :
    (t.afterReset i inp (n + 1)).tables s =
        run ((t.afterReset i inp 0).tables s) (t.opsBefore i inp s n) ∧
      (t.acceptedAt i inp s n ≠ some .swap → ((t.afterReset i inp (n + 2)).tables s).live =
        ((t.afterReset i inp (n + 1)).tables s).live) ∧
      (t.acceptedAt i inp s n = some .swap → ∀ k, ((t.afterReset i inp (n + 2)).tables s).live k =
        (lastWritten k (sinceSwap (t.opsBefore i inp s n))).getD
          ((run ((t.afterReset i inp 0).tables s)
            (uptoSwap (t.opsBefore i inp s n))).inactive k)) := by
  refine ⟨MmQuoting.tables_run n, fun hother => ?_, fun hswap k => ?_⟩
  · rw [MmQuoting.tables_succ]
    cases h : t.acceptedAt i inp s n with
    | none => rfl
    | some o =>
      have ho : o ≠ .swap := by
        rintro rfl
        exact hother h
      exact live_apply ho
  · rw [MmQuoting.tables_run, MmQuoting.opsBefore_succ, hswap]
    exact live_run_swap

end Fmma
