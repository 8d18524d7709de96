import Fmma.Rtl.AddressMap
import Fmma.Rtl.SkewTables

/-!
# The register file

What the host has written is what the engines are given, and what the host reads back. A word of
the address map keeps the last word that has been written to its address since the reset, as far as
the register has bits for it, and no other write touches it.
-/

namespace Fmma

open Clocked (latest eq_latest latest_map)

/-! ### The addresses of the registers -/

namespace MapWord

variable {p : AxiParams} {a : BitVec p.aw}

/-- `CTRL`. -/
def ctrl : MapWord p := .global 1

/-- `HALF_SPREAD` of a symbol. -/
def halfSpread (s : Fin p.nSym) : MapWord p := .register s 1

/-- `POS_LIMIT` of a symbol. -/
def posLimit (s : Fin p.nSym) : MapWord p := .register s 2

/-- An address in the upper half is not decoded to a global register. -/
theorem kind_ne_greg (h : 2 ^ (p.aw - 1) ≤ a.toNat) : (p.decode a).kind ≠ .greg := by
  obtain ⟨s, o, hs, ho, ha⟩ := AxiParams.exists_window h
  rw [(AxiParams.decode_symbol hs ho ha).1]
  split_ifs <;> exact AxiKind.noConfusion

/-- The addresses of a global register. -/
theorem is_global_iff {r : Fin 3} :
    (global r : MapWord p).Is (p.decode a) ↔ a.toNat / 4 = (global r : MapWord p).address / 4 := by
  have hlower : 256 ≤ 2 ^ (p.aw - 1) := by
    obtain ⟨k, haw1, -, hwin, hidx⟩ := p.aw_eq
    exact Nat.pow_le_pow_right Nat.two_pos (show 8 ≤ p.aw - 1 by omega)
  rw [address, Nat.mul_div_cancel_left _ (by decide : 0 < 4)]
  constructor
  · rintro ⟨hkind, hidx⟩
    have hlo : a.toNat < 2 ^ (p.aw - 1) := by
      by_contra hhi
      exact kind_ne_greg (not_lt.mp hhi) hkind
    obtain ⟨hgreg, hindex⟩ := AxiParams.decode_global hlo
    rw [hkind] at hgreg
    split_ifs at hgreg with hfirst
    exact (hindex hfirst).symm.trans hidx
  · intro ha
    have hfirst : a.toNat < 256 := by omega
    obtain ⟨hgreg, hindex⟩ := AxiParams.decode_global (hfirst.trans_le hlower)
    rw [if_pos hfirst] at hgreg
    exact ⟨hgreg, (hindex hfirst).trans ha⟩

/-- The addresses of a register of a symbol. -/
theorem is_register_iff (hwindows : p.symW + p.winW + 1 ≤ p.aw) {s : Fin p.nSym} {r : Fin 4} :
    (register s r).Is (p.decode a) ↔ a.toNat / 4 = (register s r).address / 4 := by
  obtain ⟨hwhole, -, -, hle⟩ := window_parts p
  have hbase := symBase_mod p s
  constructor
  · rintro ⟨hkind, hsym, hidx⟩
    have hhi : 2 ^ (p.aw - 1) ≤ a.toNat := by
      by_contra hlo
      rw [(AxiParams.decode_global (not_le.mp hlo)).1] at hkind
      split_ifs at hkind
    obtain ⟨s', o, hs', ho, ha⟩ := AxiParams.exists_window hhi
    have hn : s' < p.nSym := by
      by_contra hout
      rw [(AxiParams.decode_symbol hs' ho ha).1, if_neg hout] at hkind
      cases hkind
    obtain ⟨hkind', hsym', hidx'⟩ := decode_window (s := ⟨s', hn⟩) hwindows ho ha
    -- the symbol of the window is `s`, and the register is below the table
    have heq : s' = s := hsym'.symm.trans hsym
    rw [hkind'] at hkind
    split_ifs at hkind with hbook hfirst hlut
    have hplace := hidx' hfirst
    rw [hidx] at hplace
    change a.toNat = symBase p s' + o at ha
    rw [address, ha, heq]
    omega
  · intro ha
    rw [address] at ha
    have hplace : a.toNat = symBase p s + (4 * r + a.toNat % 4) := by omega
    obtain ⟨hkind, hsym, hidx⟩ := decode_window hwindows (by omega) hplace
    rw [if_neg (by omega), if_pos (by omega), if_neg (by omega)] at hkind
    exact ⟨hkind, hsym, (hidx (by omega)).trans (by omega)⟩

/-- What a read returns of the word that was last written, where it may be written at all. -/
def kept : MapWord p → Option (BitVec 32)
  | global r => if r = 1 then some 1 else none
  | register _ r =>
    if r = 0 then none
    else if r = 1 then some 0xFF
    else if r = 2 then some (BitVec.allOnes 32)
    else some 0
  | skew .. => some 0
  | bidQty .. | askQty .. => none

/-- The address of such a word is decoded to it. -/
theorem is_of_kept (hwindows : p.symW + p.winW + 1 ≤ p.aw) {m : MapWord p} {v : BitVec 32}
    (hm : m.kept = some v) (ha : a.toNat / 4 = m.address / 4) : m.Is (p.decode a) := by
  cases m with
  | global r => exact is_global_iff.mpr ha
  | register s r => exact (is_register_iff hwindows).mpr ha
  | bidQty s level | askQty s level => cases hm
  | skew s k =>
    obtain ⟨hwhole, -, -, hle⟩ := window_parts p
    have hbase := symBase_mod p s
    rw [address] at ha
    have hplace : a.toNat = symBase p s + (0x100 + 4 * k + a.toNat % 4) := by omega
    obtain ⟨hkind, hsym, hidx⟩ := decode_window hwindows (by omega) hplace
    rw [if_neg (by omega), if_pos (by omega), if_pos (by omega)] at hkind
    exact ⟨hkind, hsym, (hidx (by omega)).trans (by omega)⟩

end MapWord

/-! ### The slave -/

namespace AxiCtrl

variable {p : AxiParams}

/-- The settings after a write. -/
structure Sets (c : AxiCtrl p) (d : AxiTarget p) (w : BitVec 32) (t : AxiCtrl p) : Prop where
  quoteEnable : t.quoteEnable =
    if d.kind = .greg ∧ d.idx.toNat = 1 then w.getLsbD 0 else c.quoteEnable
  hsR : t.hsR = if d.kind = .sreg ∧ d.idx.toNat = 1 then
    Function.update c.hsR d.sym (w.setWidth 8) else c.hsR
  limR : t.limR = if d.kind = .sreg ∧ d.idx.toNat = 2 then
    Function.update c.limR d.sym (w.setWidth p.posW) else c.limR

theorem sets_write (c : AxiCtrl p) (d : AxiTarget p) (w : BitVec 32) :
    Sets c d w (c.write d w) := by
  obtain ⟨kind, sym, idx⟩ := d
  have h0 : idx = 0 ↔ idx.toNat = 0 := idx_eq_iff (by decide)
  have h1 : idx = 1 ↔ idx.toNat = 1 := idx_eq_iff (by decide)
  have h2 : idx = 2 ↔ idx.toNat = 2 := idx_eq_iff (by decide)
  have h3 : idx = 3 ↔ idx.toNat = 3 := idx_eq_iff (by decide)
  cases kind with
  | greg =>
    refine ⟨?_, ?_, ?_⟩ <;> simp only [write, h0, h1, h2, true_and, reduceCtorEq, false_and,
      if_false] <;> split_ifs <;> rfl
  | sreg =>
    refine ⟨?_, ?_, ?_⟩ <;> simp only [write, h0, h1, h2, h3, true_and, reduceCtorEq, false_and,
      if_false] <;> split_ifs <;> first | rfl | omega
  | none | lut | book =>
    refine ⟨?_, ?_, ?_⟩ <;> simp only [write, reduceCtorEq, false_and, if_false]

/-- The read channel leaves the settings alone. -/
theorem readEdge_settings (rst : Bool) (c : AxiCtrl p) (i : AxiIn p) (t : AxiCtrl p) :
    (readEdge rst c i t).quoteEnable = t.quoteEnable ∧ (readEdge rst c i t).hsR = t.hsR ∧
      (readEdge rst c i t).limR = t.limR := by
  simp only [readEdge]
  split_ifs <;> exact ⟨rfl, rfl, rfl⟩

/-- **An accepted write sets them.** -/
theorem edge_sets {c : AxiCtrl p} {i : AxiIn p} (h : c.wrFire i = true) :
    Sets c (p.decode i.awaddr) i.wdata (c.edge false i) := by
  have hwrite : Sets c (p.decode i.awaddr) i.wdata (writeEdge false c i) := by
    simp only [writeEdge, h, Bool.false_eq_true, if_false, if_true]
    split_ifs
    all_goals
      exact ⟨(sets_write _ _ _).quoteEnable, (sets_write _ _ _).hsR, (sets_write _ _ _).limR⟩
  obtain ⟨hen, hhs, hlim⟩ := readEdge_settings false c i (writeEdge false c i)
  exact ⟨hen.trans hwrite.quoteEnable, hhs.trans hwrite.hsR, hlim.trans hwrite.limR⟩

/-- Nothing else does. -/
theorem edge_keeps {c : AxiCtrl p} {i : AxiIn p} (h : c.wrFire i = false) :
    (c.edge false i).quoteEnable = c.quoteEnable ∧ (c.edge false i).hsR = c.hsR ∧
      (c.edge false i).limR = c.limR := by
  have hwrite : (writeEdge false c i).quoteEnable = c.quoteEnable ∧
      (writeEdge false c i).hsR = c.hsR ∧ (writeEdge false c i).limR = c.limR := by
    simp only [writeEdge, h, Bool.false_eq_true, if_false]
    split_ifs <;> exact ⟨rfl, rfl, rfl⟩
  obtain ⟨hen, hhs, hlim⟩ := readEdge_settings false c i (writeEdge false c i)
  exact ⟨hen.trans hwrite.1, hhs.trans hwrite.2.1, hlim.trans hwrite.2.2⟩

/-- The answer to the read of a register. -/
theorem edge_answers {c : AxiCtrl p} {i : AxiIn p} (hbusy : c.rdBusy = true)
    (hbook : c.rK ≠ .book) : (c.edge false i).rvalid = true ∧
      (c.edge false i).rdata = (c.readReg i).1 ∧ (c.edge false i).rresp = (c.readReg i).2 := by
  have hedge : c.edge false i = readEdge false c i (writeEdge false c i) := rfl
  have hfire : c.arFire i = false := by
    rw [arFire, arready, hbusy]
    exact Bool.and_false _
  rw [hedge]
  simp only [readEdge, hfire, hbusy, if_neg hbook, Bool.false_eq_true, if_false, if_true, and_self]

end AxiCtrl

/-! ### Runs -/

namespace MmQuoting

variable {p : QuotingParams}

/-- The number of a symbol, as the design counts them. -/
def number (s : Fin p.nSym) : BitVec p.symW := BitVec.ofNat p.symW s

theorem number_eq_iff {s : Fin p.nSym} {d : BitVec p.symW} : d = number s ↔ d.toNat = s := by
  have hlt : (s : ℕ) < 2 ^ p.symW := s.isLt.trans_le (Nat.le_pow_clog Nat.one_lt_two p.nSym)
  rw [← BitVec.toNat_inj, number, BitVec.toNat_ofNat, Nat.mod_eq_of_lt hlt]

variable (t : MmQuoting p) (i : QuotingIn p) (inp : ℕ → QuotingIn p)

/-- A write is accepted in cycle `n`. -/
def writes (n : ℕ) : Bool :=
  (t.afterReset i inp n).ctrl.wrFire ((t.afterReset i inp n).axiIn (inp n).toMmIn)

/-- A read is accepted in cycle `n`. -/
def reads (n : ℕ) : Bool :=
  (t.afterReset i inp n).ctrl.arFire ((t.afterReset i inp n).axiIn (inp n).toMmIn)

/-- What is written in cycle `n` to a word of the address map, if anything is. -/
def wrote (m : MapWord p.toAxiParams) (n : ℕ) : Option (BitVec 32) :=
  if t.writes i inp n = true ∧ (inp n).awaddr.toNat / 4 = m.address / 4 then some (inp n).wdata
  else none

/-- The word that was last written there before cycle `n`, or 0. -/
def lastWord (m : MapWord p.toAxiParams) (n : ℕ) : BitVec 32 :=
  (latest (t.wrote i inp m) n).getD 0

variable {t i inp}

/-- A register that takes some bits of what is written to its address, and is cleared by the
reset, has those of the last word. -/
theorem eq_lastWord {β : Type*} {m : MapWord p.toAxiParams} {f : BitVec 32 → β} {r : ℕ → β}
    (hzero : r 0 = f 0) (h : ∀ n, r (n + 1) = ((t.wrote i inp m n).map f).getD (r n)) (n : ℕ) :
    r n = f (t.lastWord i inp m n) := by
  rw [eq_latest h n, latest_map, hzero, lastWord]
  cases latest (t.wrote i inp m) n <;> rfl

/-- The address of the word is written, and the decoder finds the word, or none of that. -/
theorem wrote_cases (m : MapWord p.toAxiParams) (n : ℕ)
    (hm : m.Is (p.decode (inp n).awaddr) ↔ (inp n).awaddr.toNat / 4 = m.address / 4) :
    t.writes i inp n = true ∧ m.Is (p.decode (inp n).awaddr) ∧
        t.wrote i inp m n = some (inp n).wdata ∨
      (t.writes i inp n = true → ¬m.Is (p.decode (inp n).awaddr)) ∧ t.wrote i inp m n = none := by
  by_cases h : t.writes i inp n = true ∧ (inp n).awaddr.toNat / 4 = m.address / 4
  · exact .inl ⟨h.1, hm.mpr h.2, if_pos h⟩
  · exact .inr ⟨fun hw his => h ⟨hw, hm.mp his⟩, if_neg h⟩

/-- `quote_enable`. -/
theorem quoteEnable_eq (n : ℕ) : (t.afterReset i inp n).ctrl.quoteEnable =
    (t.lastWord i inp MapWord.ctrl n).getLsbD 0 := by
  refine eq_lastWord (f := fun w => w.getLsbD 0)
    (r := fun n => (t.afterReset i inp n).ctrl.quoteEnable) ?_ (fun n => ?_) n
  · exact (AxiCtrl.readEdge_settings true t.ctrl (t.axiIn i.toMmIn) _).1
  · rcases t.wrote_cases (i := i) MapWord.ctrl n MapWord.is_global_iff with
      ⟨hw, his, hsome⟩ | ⟨hother, hnone⟩
    · rw [hsome]
      exact (AxiCtrl.edge_sets hw).quoteEnable.trans (if_pos his)
    · rw [hnone]
      cases hw : t.writes i inp n with
      | true => exact (AxiCtrl.edge_sets hw).quoteEnable.trans (if_neg (hother hw))
      | false => exact (AxiCtrl.edge_keeps hw).1

/-- A register that every symbol has. -/
theorem symbolRegister_eq {k : ℕ} {r : Fin 4}
    {g : AxiCtrl p.toAxiParams → BitVec p.symW → BitVec k}
    (hzero : ∀ (c : AxiCtrl p.toAxiParams) (i), g (c.edge true i) = fun _ => 0)
    (hset : ∀ (c : AxiCtrl p.toAxiParams) (i), c.wrFire i = true → g (c.edge false i) =
      if (p.decode i.awaddr).kind = .sreg ∧ (p.decode i.awaddr).idx.toNat = r then
        Function.update (g c) (p.decode i.awaddr).sym (i.wdata.setWidth k) else g c)
    (hkeep : ∀ (c : AxiCtrl p.toAxiParams) (i), c.wrFire i = false → g (c.edge false i) = g c)
    (s : Fin p.nSym) (n : ℕ) : g (t.afterReset i inp n).ctrl (number s) =
      (t.lastWord i inp (MapWord.register s r) n).setWidth k := by
  refine eq_lastWord (f := fun w => w.setWidth k)
    (r := fun n => g (t.afterReset i inp n).ctrl (number s)) ?_ (fun n => ?_) n
  · have hclear := congrFun (hzero t.ctrl (t.axiIn i.toMmIn)) (number s)
    exact hclear.trans (by simp)
  · rcases t.wrote_cases (i := i) (MapWord.register s r) n (MapWord.is_register_iff p.windows) with
      ⟨hw, ⟨hkind, hsym, hidx⟩, hsome⟩ | ⟨hother, hnone⟩
    · have hreg := congrFun ((hset _ _ hw).trans (if_pos ⟨hkind, hidx⟩)) (number s)
      have hnumber : (p.decode (inp n).awaddr).sym = number s := number_eq_iff.mpr hsym
      rw [hsome]
      refine hreg.trans ?_
      rw [← hnumber]
      exact Function.update_self ..
    · rw [hnone]
      cases hw : t.writes i inp n with
      | true =>
        refine (congrFun (hset _ _ hw) (number s)).trans ?_
        split_ifs with hreg
        · refine Function.update_of_ne (fun heq => ?_) _ _
          exact hother hw ⟨hreg.1, number_eq_iff.mp heq.symm, hreg.2⟩
        · rfl
      | false => exact congrFun (hkeep _ _ hw) (number s)

/-- `half_spread` of a symbol. -/
theorem hsR_eq (s : Fin p.nSym) (n : ℕ) : (t.afterReset i inp n).ctrl.hsR (number s) =
    (t.lastWord i inp (MapWord.halfSpread s) n).setWidth 8 :=
  symbolRegister_eq (r := 1) (g := AxiCtrl.hsR)
    (fun c i => (AxiCtrl.readEdge_settings true c i _).2.1)
    (fun _ _ h => (AxiCtrl.edge_sets h).hsR) (fun _ _ h => (AxiCtrl.edge_keeps h).2.1) s n

/-- `pos_limit` of a symbol. -/
theorem limR_eq (s : Fin p.nSym) (n : ℕ) : (t.afterReset i inp n).ctrl.limR (number s) =
    (t.lastWord i inp (MapWord.posLimit s) n).setWidth p.posW :=
  symbolRegister_eq (r := 2) (g := AxiCtrl.limR)
    (fun c i => (AxiCtrl.readEdge_settings true c i _).2.2)
    (fun _ _ h => (AxiCtrl.edge_sets h).limR) (fun _ _ h => (AxiCtrl.edge_keeps h).2.2) s n

/-- The low bits of a word. -/
theorem setWidth_eight (w : BitVec 32) : (w.setWidth 8).setWidth 32 = w &&& 0xFF := by
  refine BitVec.eq_of_toNat_eq ?_
  have hmask : (0xFF : BitVec 32).toNat = 2 ^ 8 - 1 := rfl
  have hlt : w.toNat % 2 ^ 8 < 2 ^ 32 := (Nat.mod_lt _ (by decide)).trans (by decide)
  rw [BitVec.toNat_setWidth, BitVec.toNat_setWidth, BitVec.toNat_and, hmask,
    Nat.and_two_pow_sub_one_eq_mod, Nat.mod_eq_of_lt hlt]

theorem setWidth_posW (w : BitVec 32) : (w.setWidth p.posW).setWidth 32 = w := by
  refine BitVec.eq_of_toNat_eq ?_
  rw [BitVec.toNat_setWidth, BitVec.toNat_setWidth, p.posW_eq, Nat.mod_mod,
    Nat.mod_eq_of_lt w.isLt]

/-- What is read of a word of the map that may be written. -/
theorem readReg_eq {m : MapWord p.toAxiParams} {v : BitVec 32} (hm : m.kept = some v) {n : ℕ}
    {x : AxiIn p.toAxiParams} {c : AxiCtrl p.toAxiParams} (hen : c.quoteEnable =
      (t.lastWord i inp MapWord.ctrl n).getLsbD 0)
    (hhs : ∀ s, c.hsR (number s) = (t.lastWord i inp (MapWord.halfSpread s) n).setWidth 8)
    (hlim : ∀ s, c.limR (number s) = (t.lastWord i inp (MapWord.posLimit s) n).setWidth p.posW)
    (his : m.Is ⟨c.rK, c.rSym, c.rI⟩) :
    c.rK ≠ .book ∧ c.readReg x = (t.lastWord i inp m n &&& v, okay) := by
  have h0 : c.rI = 0 ↔ c.rI.toNat = 0 := AxiCtrl.idx_eq_iff (by decide)
  have h1 : c.rI = 1 ↔ c.rI.toNat = 1 := AxiCtrl.idx_eq_iff (by decide)
  have h2 : c.rI = 2 ↔ c.rI.toNat = 2 := AxiCtrl.idx_eq_iff (by decide)
  have h3 : c.rI = 3 ↔ c.rI.toNat = 3 := AxiCtrl.idx_eq_iff (by decide)
  cases m with
  | bidQty s level | askQty s level => cases hm
  | skew s k =>
    have hkind : c.rK = .lut := his.1
    cases hm
    refine ⟨hkind ▸ AxiKind.noConfusion, ?_⟩
    simp only [AxiCtrl.readReg, hkind, BitVec.ofNat_eq_ofNat, BitVec.and_zero]
  | global r =>
    have hkind : c.rK = .greg := his.1
    have hidx : c.rI.toNat = r := his.2
    simp only [MapWord.kept] at hm
    split_ifs at hm with hr
    cases hm
    subst hr
    refine ⟨hkind ▸ AxiKind.noConfusion, ?_⟩
    simp only [AxiCtrl.readReg, hkind, h0, h1, hidx, hen]
    rw [if_neg (by decide), if_pos (by decide)]
    exact congrArg (·, okay) BitVec.and_one_eq_setWidth_ofBool_getLsbD.symm
  | register s r =>
    have hkind : c.rK = .sreg := his.1
    have hidx : c.rI.toNat = r := his.2.2
    have hnumber : c.rSym = number s := number_eq_iff.mpr his.2.1
    refine ⟨hkind ▸ AxiKind.noConfusion, ?_⟩
    simp only [MapWord.kept] at hm
    split_ifs at hm with hr0 hr1 hr2
    · cases hm
      subst hr1
      simp only [AxiCtrl.readReg, hkind, h0, h1, hidx, hnumber, hhs, setWidth_eight]
      rfl
    · cases hm
      subst hr2
      simp only [AxiCtrl.readReg, hkind, h0, h1, h2, hidx, hnumber, hlim, setWidth_posW,
        BitVec.and_allOnes]
      rfl
    · cases hm
      have hr3 : r = 3 := by omega
      subst hr3
      simp only [AxiCtrl.readReg, hkind, h0, h1, h2, h3, hidx]
      exact congrArg (·, okay) BitVec.and_zero.symm

/-- A read that has been accepted. -/
theorem reading {n : ℕ} (hread : t.reads i inp n = true) :
    (t.afterReset i inp (n + 1)).ctrl.rdBusy = true ∧
      (⟨(t.afterReset i inp (n + 1)).ctrl.rK, (t.afterReset i inp (n + 1)).ctrl.rSym,
        (t.afterReset i inp (n + 1)).ctrl.rI⟩ : AxiTarget p.toAxiParams) =
        p.decode (inp n).araddr := by
  rcases AxiCtrl.read_cases (t.afterReset i inp n).ctrl
    ((t.afterReset i inp n).axiIn (inp n).toMmIn) with hstart | hanswer | hwait
  · exact ⟨hstart.rdBusy, hstart.target⟩
  · exact absurd (hread.symm.trans hanswer.fires) (by decide)
  · exact absurd (hread.symm.trans hwait.fires) (by decide)

/-- **A read of a word that may be written** is answered two cycles after it was accepted. -/
theorem read_back {m : MapWord p.toAxiParams} {v : BitVec 32} (hm : m.kept = some v) {n : ℕ}
    (hread : t.reads i inp n = true) (ha : (inp n).araddr.toNat / 4 = m.address / 4) :
    (t.afterReset i inp (n + 2)).ctrl.rvalid = true ∧
      (t.afterReset i inp (n + 2)).ctrl.rresp = okay ∧
      (t.afterReset i inp (n + 2)).ctrl.rdata = t.lastWord i inp m (n + 1) &&& v := by
  set c := (t.afterReset i inp (n + 1)).ctrl with hc
  obtain ⟨hbusy, htarget⟩ := reading hread
  have his : m.Is ⟨c.rK, c.rSym, c.rI⟩ := by
    rw [htarget]
    exact MapWord.is_of_kept p.windows hm ha
  obtain ⟨hbook, hreg⟩ := readReg_eq (t := t) (i := i) (n := n + 1)
    (x := (t.afterReset i inp (n + 1)).axiIn (inp (n + 1)).toMmIn) hm (quoteEnable_eq _)
    (fun s => hsR_eq s _) (fun s => limR_eq s _) his
  obtain ⟨hvalid, hdata, hresp⟩ := AxiCtrl.edge_answers
    (i := (t.afterReset i inp (n + 1)).axiIn (inp (n + 1)).toMmIn) hbusy hbook
  exact ⟨hvalid, hresp.trans (congrArg Prod.snd hreg), hdata.trans (congrArg Prod.fst hreg)⟩

end MmQuoting

/-- **The register file.** From any state, through a reset and with any inputs after it: the enable,
and the spread and the limit of every symbol, are what was last written to their addresses, or 0,
whatever else is written; and a read of a word that may be written is answered two cycles later with
what the word kept of that. -/
theorem register_file {p : QuotingParams} (t : MmQuoting p) (i : QuotingIn p)
    (inp : ℕ → QuotingIn p) (n : ℕ) :
    ((t.afterReset i inp n).ctrl.quoteEnable = (t.lastWord i inp MapWord.ctrl n).getLsbD 0 ∧
      ∀ s : Fin p.nSym, (t.afterReset i inp n).ctrl.hsR (MmQuoting.number s) =
          (t.lastWord i inp (MapWord.halfSpread s) n).setWidth 8 ∧
        (t.afterReset i inp n).ctrl.limR (MmQuoting.number s) =
          (t.lastWord i inp (MapWord.posLimit s) n).setWidth p.posW) ∧
    ∀ (m : MapWord p.toAxiParams) (v : BitVec 32), m.kept = some v → t.reads i inp n = true →
      (inp n).araddr.toNat / 4 = m.address / 4 →
        (t.afterReset i inp (n + 2)).ctrl.rvalid = true ∧
          (t.afterReset i inp (n + 2)).ctrl.rresp = okay ∧
          (t.afterReset i inp (n + 2)).ctrl.rdata = t.lastWord i inp m (n + 1) &&& v :=
  ⟨⟨MmQuoting.quoteEnable_eq n, fun s => ⟨MmQuoting.hsR_eq s n, MmQuoting.limR_eq s n⟩⟩,
    fun _ _ hm hread ha => MmQuoting.read_back hm hread ha⟩

end Fmma
