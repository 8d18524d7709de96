import Fmma.Rtl.Quotes
import Fmma.Rtl.RegisterFile

/-!
# From tick to quote

`mm_top.v` from one end to the other: what is quoted for a symbol, from the updates of its book, the
position, and what the host has written. A bank needs four cycles for an update and an engine two
for a quote.
-/

namespace Fmma

/-! ### The specification -/

/-- The best bid and the best ask of a book with both sides, where they do not cross. -/
structure RefBook.Touch {wselW : ℕ} (r : RefBook wselW) (bid ask : BitVec (wselW + 5)) : Prop where
  highest : IsGreatest {l | r false l ≠ 0} bid
  lowest : IsLeast {l | r true l ≠ 0} ask
  uncrossed : bid < ask

/-- What goes into a quote besides the book. -/
structure QuoteTerms where
  enable : Bool
  position : BitVec 32
  limit : BitVec 32
  spread : BitVec 8
  skew : BitVec 8

namespace QuoteTerms

variable (x : QuoteTerms)

/-- The bid in a market at `b` and `a`: half a spread below the middle, leaning against the
position, and below the best ask. -/
def bid (b a : ℤ) : ℤ := min ((b + a) / 2 - x.spread.toNat - x.skew.toInt) (a - 1)

/-- The ask, above the best bid. -/
def ask (b a : ℤ) : ℤ := max ((b + a) / 2 + x.spread.toNat - x.skew.toInt) (b + 1)

end QuoteTerms

/-- **What is quoted.** A side is quoted if quotes are enabled, the position may grow on that side,
the book has a touch, and the price is on the grid; and then at that price. The limit is negated as
a word of 32 bits. -/
structure RefBook.Quoted {wselW idxW : ℕ} (r : RefBook wselW) (x : QuoteTerms)
    (q : QuoteEngine idxW) : Prop where
  bidEn : q.qBidEn = true ↔ x.enable = true ∧ x.position.toInt < x.limit.toInt ∧
    ∃ b a, r.Touch b a ∧ 0 ≤ x.bid b.toNat a.toNat
  bid : q.qBidEn = true → ∀ b a, r.Touch b a → (q.qBid.toNat : ℤ) = x.bid b.toNat a.toNat
  askEn : q.qAskEn = true ↔ x.enable = true ∧ (-x.limit).toInt < x.position.toInt ∧
    ∃ b a, r.Touch b a ∧ x.ask b.toNat a.toNat ≤ 2 ^ idxW - 1
  ask : q.qAskEn = true → ∀ b a, r.Touch b a → (q.qAsk.toNat : ℤ) = x.ask b.toNat a.toNat

/-! ### The bank in every cycle -/

namespace BookBank

variable {wselW qtyW : ℕ} (b : BookBank wselW qtyW) (i : BookIn wselW qtyW)
  (inp : ℕ → BookIn wselW qtyW)

/-- The bitmaps are those of the reference book of the cycle before, also while the RAM is being
cleared. -/
theorem maps_refBook (n : ℕ) :
    {l | (b.afterReset i inp (n + 1)).bidMap l = true} = {l | b.refBook i inp n false l ≠ 0} ∧
      {l | (b.afterReset i inp (n + 1)).askMap l = true} = {l | b.refBook i inp n true l ≠ 0} := by
  have hinv := inv_afterReset b i inp n
  have hnext : b.afterReset i inp (n + 1) = edge false (b.afterReset i inp n) (inp n) := rfl
  cases hbusy : (b.afterReset i inp n).clrBusy with
  | true =>
    obtain ⟨hs1, hr⟩ := hinv.idle hbusy
    have hmap : ∀ l, (b.afterReset i inp (n + 1)).bidMap l = false ∧
        (b.afterReset i inp (n + 1)).askMap l = false := by
      intro l
      simpa [hnext, edge, hs1] using hinv.empty hbusy l
    constructor
    · ext l
      simp [hmap l, hr]
    · ext l
      simp [hmap l, hr]
  | false =>
    have hbusy' : (b.afterReset i inp (n + 1)).clrBusy = false := by simp [hnext, edge, hbusy]
    have hinv' := inv_afterReset b i inp (n + 1)
    have hmem : (b.afterReset i inp (n + 1)).levelQty = (b.afterReset i inp n).settled :=
      levelQty_edge hbusy
    have hbook : ∀ s l, b.refBook i inp n s l =
        ((b.afterReset i inp (n + 1)).levelQty (BitVec.cons s l)).toNat := by
      rw [hmem]
      exact hinv.book hbusy
    exact ⟨occupied_iff (hinv'.bidMap hbusy') (hbook false),
      occupied_iff (hinv'.askMap hbusy') (hbook true)⟩

/-- **The outputs in every cycle** from the fifth after the reset on are the top of the book of
three cycles before. -/
theorem shown (n : ℕ) : (b.refBook i inp (n + 1)).Shown (b.afterReset i inp (n + 4)) := by
  obtain ⟨hbids, hasks⟩ := maps_refBook b i inp (n + 1)
  refine ⟨?_, fun hp => ?_, ?_, fun hp => ?_⟩
  · change present (b.afterReset i inp (n + 2)).bidMap = true ↔ _
    rw [present_iff]
    exact iff_of_eq (congrArg Set.Nonempty hbids)
  · rw [← hbids]
    exact isGreatest_best hp
  · change present (b.afterReset i inp (n + 2)).askMap = true ↔ _
    rw [present_iff]
    exact iff_of_eq (congrArg Set.Nonempty hasks)
  · rw [← hasks]
    exact isLeast_bestLow hp

end BookBank

/-- What is shown of a book with a touch. -/
theorem RefBook.Shown.touch {wselW qtyW : ℕ} {r : RefBook wselW} {b : BookBank wselW qtyW}
    (h : r.Shown b) {bid ask : BitVec (wselW + 5)} (ht : r.Touch bid ask) :
    b.bidPresent = true ∧ b.askPresent = true ∧ b.bestBid = bid ∧ b.bestAsk = ask := by
  have hbid : b.bidPresent = true := h.bidPresent.mpr ⟨bid, ht.highest.1⟩
  have hask : b.askPresent = true := h.askPresent.mpr ⟨ask, ht.lowest.1⟩
  obtain ⟨hmem, hup⟩ := h.bestBid hbid
  obtain ⟨hmem', hdown⟩ := h.bestAsk hask
  exact ⟨hbid, hask, BitVec.le_antisymm (ht.highest.2 hmem) (hup ht.highest.1),
    BitVec.le_antisymm (hdown ht.lowest.1) (ht.lowest.2 hmem')⟩

/-! ### The engine -/

namespace QuoteEngine

variable {wselW idxW : ℕ} {s : QuoteEngine idxW} {i j : QuoteIn idxW}

/-- From 128 levels on the prices have room. -/
theorem exact_bounds (h : 7 ≤ idxW) :
    -2 ^ (idxW + 2) ≤ s.exactBid i j ∧ s.exactAsk i j < 2 ^ (idxW + 2) := by
  obtain ⟨hbid, hask, hspread, hlo, hhi⟩ := bounds s i j
  obtain ⟨-, hwide, -⟩ := widths (show 6 ≤ idxW by omega)
  have hgrid : (128 : ℤ) ≤ 2 ^ idxW :=
    calc (128 : ℤ) = 2 ^ 7 := by norm_num
      _ ≤ 2 ^ idxW := pow_le_pow_right₀ (by norm_num) h
  have hfair : 0 ≤ fairOf i ∧ fairOf i < 2 ^ idxW := by
    rw [fairOf]
    omega
  rw [exactBid, exactAsk, hwide]
  omega

/-- The enable of the ask, with the limit as it is negated. -/
theorem qAskEn_iff_neg : (edge false (edge false s i) j).qAskEn = true ↔
    Market i j ∧ (-i.posLimit).toInt < i.position.toInt ∧
      ((edge false s i).cAsk j).toInt ≤ 2 ^ idxW - 1 := by
  have hedge : (edge false (edge false s i) j).qAskEn =
      (j.quoteEnable && (i.bidPresent && i.askPresent && decide (i.bestBid < i.bestAsk)) &&
        !decide (i.position.toInt ≤ (-i.posLimit).toInt) && (edge false s i).askOnGrid j) := rfl
  rw [hedge, askOnGrid]
  simp only [Bool.and_eq_true, decide_eq_true_eq, Bool.not_eq_true',
    decide_eq_false_iff_not, not_le]
  exact market_iff i j _ _

/-- The bucket of a position, by its number. -/
theorem bucket_eq (position : BitVec 32) :
    bucket position = BitVec.ofNat 6 (bucketOf position.toInt).toNat := by
  refine BitVec.eq_of_toNat_eq ?_
  have hnat := toNat_bucket position
  have hlt := (bucket position).isLt
  rw [BitVec.toNat_ofNat, ← hnat, Int.toNat_natCast, Nat.mod_eq_of_lt hlt]

/-- What an engine is given that shows a book. -/
structure Sees (r : RefBook wselW) (x : QuoteTerms) (s : QuoteEngine idxW) (i j : QuoteIn idxW) :
    Prop where
  market : Market i j ↔ x.enable = true ∧ ∃ b a, r.Touch b a
  touch : ∀ b a, r.Touch b a → i.bestBid.toNat = b.toNat ∧ i.bestAsk.toNat = a.toNat
  position : i.position = x.position
  limit : i.posLimit = x.limit
  spread : j.halfSpread = x.spread
  skew : s.skew i = x.skew.toInt

variable {r : RefBook wselW} {x : QuoteTerms}

/-- The prices are those of the specification. -/
theorem Sees.prices (h : Sees r x s i j) {b a : BitVec (wselW + 5)} (ht : r.Touch b a) :
    s.pb i j = x.bid b.toNat a.toNat ∧ s.pa i j = x.ask b.toNat a.toNat := by
  obtain ⟨hb, ha⟩ := h.touch b a ht
  constructor
  · rw [pb, exactBid, fairOf, hb, ha, h.spread, h.skew]
    rfl
  · rw [pa, exactAsk, fairOf, hb, ha, h.spread, h.skew]
    rfl

/-- **An engine quotes what it sees.** -/
theorem Sees.quoted (h : Sees r x s i j) (hidx : 7 ≤ idxW) :
    r.Quoted x (edge false (edge false s i) j) := by
  obtain ⟨hlow, hhigh⟩ := exact_bounds (s := s) (i := i) (j := j) hidx
  have hsix : 6 ≤ idxW := by omega
  have hbid : ((edge false s i).cBid j).toInt = s.pb i j := by
    rw [toInt_cBid s i j hsix, if_pos hlow]
  have hask : ((edge false s i).cAsk j).toInt = s.pa i j := by
    rw [toInt_cAsk s i j hsix, if_pos hhigh]
  have hbidEn := qBidEn_iff s i j
  have haskEn := qAskEn_iff_neg (s := s) (i := i) (j := j)
  rw [hbid, h.market, h.position, h.limit] at hbidEn
  rw [hask, h.market, h.position, h.limit] at haskEn
  have hbelow : s.pb i j < 2 ^ idxW := by
    obtain ⟨-, hgrid, -⟩ := bounds s i j
    have hle : s.pb i j ≤ i.bestAsk.toNat - 1 := min_le_right _ _
    omega
  have habove : 0 ≤ s.pa i j := by
    have hle : (i.bestBid.toNat : ℤ) + 1 ≤ s.pa i j := le_max_right _ _
    omega
  refine ⟨hbidEn.trans ?_, fun hen b a ht => ?_, haskEn.trans ?_, fun hen b a ht => ?_⟩
  · constructor
    · rintro ⟨⟨hen, b, a, ht⟩, hpos, hprice⟩
      exact ⟨hen, hpos, b, a, ht, (h.prices ht).1 ▸ hprice⟩
    · rintro ⟨hen, hpos, b, a, ht, hprice⟩
      exact ⟨⟨hen, b, a, ht⟩, hpos, (h.prices ht).1 ▸ hprice⟩
  · have hprice := (hbidEn.mp hen).2.2
    rw [← hbid] at hprice hbelow
    rw [← (h.prices ht).1, ← hbid]
    exact Signed.toNat_setWidth (w := idxW + 2) hprice hbelow
  · constructor
    · rintro ⟨⟨hen, b, a, ht⟩, hpos, hprice⟩
      exact ⟨hen, hpos, b, a, ht, (h.prices ht).2 ▸ hprice⟩
    · rintro ⟨hen, hpos, b, a, ht, hprice⟩
      exact ⟨⟨hen, b, a, ht⟩, hpos, (h.prices ht).2 ▸ hprice⟩
  · have hprice := (haskEn.mp hen).2.2
    rw [← hask] at hprice habove
    rw [← (h.prices ht).2, ← hask]
    exact Signed.toNat_setWidth (w := idxW + 2) habove (by omega)

end QuoteEngine

/-! ### The run -/

namespace MmQuoting

open DoubleBuffer

variable {p : QuotingParams} (t : MmQuoting p) (i : QuotingIn p) (inp : ℕ → QuotingIn p)
  (s : Fin p.nSym)

/-- The books and the slave go their own way. -/
theorem afterReset_toMmTop (n : ℕ) : (t.afterReset i inp n).toMmTop =
    t.toMmTop.afterReset i.toMmIn (fun k => (inp k).toMmIn) n := by
  induction n with
  | zero => rfl
  | succ n ih =>
    have hnext : (t.afterReset i inp (n + 1)).toMmTop =
        (t.afterReset i inp n).toMmTop.edge false (inp n).toMmIn := rfl
    rw [hnext, ih]
    rfl

/-- An update of the book of the symbol is taken in cycle `n`: from the cycle on in which the RAM
has been cleared. -/
def takes (n : ℕ) : Bool :=
  (inp n).updValid && (inp n).updSym == number s && decide (2 * p.levels ≤ n)

/-- The book of all that is taken before cycle `n`. -/
def book : ℕ → RefBook p.wselW
  | 0 => fun _ _ => 0
  | n + 1 =>
    if takes inp s n then
      (book n).apply p.qtyW (inp n).updSide (inp n).updIdx (inp n).updDelta.toInt
    else book n

/-- The bank of the symbol, from a reset on. -/
theorem bank_eq (n : ℕ) : (t.afterReset i inp n).bank (number s) =
    (t.bank (number s)).afterReset (t.bankIn i.toMmIn (number s))
      (t.toMmTop.bankInAt i.toMmIn (fun k => (inp k).toMmIn) (number s)) n := by
  rw [← MmTop.afterReset_bank, afterReset_toMmTop]

theorem accepts_eq (n : ℕ) : (t.bank (number s)).accepts (t.bankIn i.toMmIn (number s))
    (t.toMmTop.bankInAt i.toMmIn (fun k => (inp k).toMmIn) (number s)) n = takes inp s n := by
  have hready := BookBank.ready_iff (t.bank (number s)) (t.bankIn i.toMmIn (number s))
    (t.toMmTop.bankInAt i.toMmIn (fun k => (inp k).toMmIn) (number s)) n
  have hlevels : 2 ^ (p.wselW + 5 + 1) = 2 * p.levels := by rw [p.levels_eq, Nat.pow_succ']
  rw [BookBank.accepts, BookBank.updGo, takes, ← hlevels]
  exact congrArg _ (Bool.eq_iff_iff.mpr (hready.trans decide_eq_true_iff.symm))

theorem refBook_eq (n : ℕ) : (t.bank (number s)).refBook (t.bankIn i.toMmIn (number s))
    (t.toMmTop.bankInAt i.toMmIn (fun k => (inp k).toMmIn) (number s)) n = book inp s n := by
  induction n with
  | zero => rfl
  | succ n ih =>
    rw [BookBank.refBook, BookBank.follow, ih, book, ← accepts_eq t i inp s n]
    rfl

/-- What goes into the quote for a trigger of cycle `n`. The spread and the enable are those of the
cycle after it. -/
def terms (n : ℕ) : QuoteTerms where
  enable := (t.lastWord i inp MapWord.ctrl (n + 1)).getLsbD 0
  position := (inp n).position (number s)
  limit := t.lastWord i inp (MapWord.posLimit s) n
  spread := (t.lastWord i inp (MapWord.halfSpread s) (n + 1)).setWidth 8
  skew :=
    (run ((t.afterReset i inp 0).tables (number s)) (t.opsBefore i inp (number s) (n - 1))).live
      (QuoteEngine.bucket ((inp n).position (number s)))

theorem idxW_eq (p : QuotingParams) : p.idxW = p.wselW + 5 := by
  rw [AxiParams.idxW, p.levels_eq, Nat.clog_pow 2 _ (by decide)]

/-- The engines have the levels of the banks. -/
theorem toNat_level (l : BitVec (p.wselW + 5)) : (l.setWidth p.idxW).toNat = l.toNat := by
  rw [BitVec.toNat_setWidth, idxW_eq, Nat.mod_eq_of_lt l.isLt]

/-- **The engine sees the book** of three cycles before its trigger, and the settings. -/
theorem sees (n : ℕ) : QuoteEngine.Sees (book inp s (n + 1)) (t.terms i inp s (n + 4))
    ((t.afterReset i inp (n + 4)).engine (number s))
    ((t.afterReset i inp (n + 4)).engineIn (inp (n + 4)) (number s))
    ((t.afterReset i inp (n + 5)).engineIn (inp (n + 5)) (number s)) := by
  set b := (t.afterReset i inp (n + 4)).bank (number s) with hb
  have hshown : (book inp s (n + 1)).Shown b := by
    rw [hb, bank_eq, ← refBook_eq t i]
    exact BookBank.shown _ _ _ n
  refine ⟨?_, fun bid ask ht => ?_, rfl, ?_, ?_, ?_⟩
  · have hen : (t.afterReset i inp (n + 5)).ctrl.quoteEnable = (t.terms i inp s (n + 4)).enable :=
      quoteEnable_eq _
    constructor
    · rintro ⟨hon, hbid, hask, hlt⟩
      refine ⟨hen.symm.trans hon, b.bestBid, b.bestAsk, hshown.bestBid hbid, hshown.bestAsk hask,
        ?_⟩
      change b.bestBid.setWidth p.idxW < b.bestAsk.setWidth p.idxW at hlt
      rwa [BitVec.lt_def, toNat_level, toNat_level] at hlt
    · rintro ⟨hon, bid, ask, ht⟩
      obtain ⟨hbid, hask, hbest, hbest'⟩ := hshown.touch ht
      refine ⟨hen.trans hon, hbid, hask, ?_⟩
      change b.bestBid.setWidth p.idxW < b.bestAsk.setWidth p.idxW
      rw [BitVec.lt_def, toNat_level, toNat_level, hbest, hbest']
      exact ht.uncrossed
  · obtain ⟨-, -, hbest, hbest'⟩ := hshown.touch ht
    rw [← hbest, ← hbest']
    exact ⟨toNat_level _, toNat_level _⟩
  · have hlim : (t.afterReset i inp (n + 4)).ctrl.limR (number s) =
      (t.lastWord i inp (MapWord.posLimit s) (n + 4)).setWidth p.posW := limR_eq s _
    exact (congrArg (BitVec.setWidth 32) hlim).trans (setWidth_posW _)
  · exact hsR_eq s _
  · have htables : (t.afterReset i inp (n + 4)).tables (number s) =
        run ((t.afterReset i inp 0).tables (number s)) (t.opsBefore i inp (number s) (n + 3)) :=
      tables_run (n + 3)
    have hlive : (t.terms i inp s (n + 4)).skew =
        ((t.afterReset i inp (n + 4)).tables (number s)).live
          (QuoteEngine.bucket ((inp (n + 4)).position (number s))) := by
      rw [htables]
      rfl
    rw [hlive, QuoteEngine.bucket_eq]
    rfl

end MmQuoting

/-- **From tick to quote.** From any state, through a reset and with any inputs after it: a quote
for a symbol is valid in cycle `n + 6` just when an update of its book is taken in cycle `n`, or
its position changes in cycle `n + 4`; and what is quoted is what the specification says of the
book of all updates taken up to cycle `n`, with the position of cycle `n + 4` and the settings that
were last written before. -/
theorem tick_to_quote {p : QuotingParams} (t : MmQuoting p) (i : QuotingIn p)
    (inp : ℕ → QuotingIn p) (s : Fin p.nSym) (n : ℕ) :
    ((t.afterReset i inp (n + 6)).engine (MmQuoting.number s)).qValid =
        (MmQuoting.takes inp s n || (inp (n + 4)).posUpdate (MmQuoting.number s)) ∧
      (MmQuoting.book inp s (n + 1)).Quoted (t.terms i inp s (n + 4))
        ((t.afterReset i inp (n + 6)).engine (MmQuoting.number s)) := by
  have hidx : 7 ≤ p.idxW := by
    obtain ⟨-, -, -, -, hidx⟩ := p.toAxiParams.aw_eq
    exact hidx
  refine ⟨?_, (MmQuoting.sees t i inp s n).quoted hidx⟩
  have hvalid : ((t.afterReset i inp (n + 6)).engine (MmQuoting.number s)).qValid =
      (((t.afterReset i inp (n + 4)).bank (MmQuoting.number s)).tobValid ||
        (inp (n + 4)).posUpdate (MmQuoting.number s)) := rfl
  rw [hvalid, MmQuoting.bank_eq, ← MmQuoting.accepts_eq t i inp s n]
  rfl

/-! ### The word TOB -/

/-- The top of a book in a word: bit 31 if there is a bid, bit 30 if there is an ask, the best ask
from bit 16 on and the best bid from bit 0 on. -/
structure RefBook.InWord {wselW : ℕ} (r : RefBook wselW) (w : BitVec 32) : Prop where
  bidPresent : w.getLsbD 31 = true ↔ ∃ l, r false l ≠ 0
  bestBid : w.getLsbD 31 = true → IsGreatest {l | r false l ≠ 0} (w.extractLsb' 0 (wselW + 5))
  askPresent : w.getLsbD 30 = true ↔ ∃ l, r true l ≠ 0
  bestAsk : w.getLsbD 30 = true → IsLeast {l | r true l ≠ 0} (w.extractLsb' 16 (wselW + 5))

section Pack

variable {m : ℕ}

/-- The packing of `tob_word`. -/
def packTob (x y : Bool) (a b : BitVec m) : BitVec 32 :=
  (BitVec.ofBool x).setWidth 32 <<< 31 ||| (BitVec.ofBool y).setWidth 32 <<< 30 |||
    a.setWidth 32 <<< 16 ||| b.setWidth 32

variable (h : m ≤ 14) (x y : Bool) (a b : BitVec m)
include h

/-- The prices leave the two upper bits alone. -/
theorem getLsbD_packTob : (packTob x y a b).getLsbD 31 = x ∧ (packTob x y a b).getLsbD 30 = y := by
  constructor
  · simp only [packTob, BitVec.getLsbD_or, BitVec.getLsbD_shiftLeft, BitVec.getLsbD_setWidth,
      BitVec.getLsbD_ofBool, BitVec.getLsbD_of_ge a 15 (by omega),
      BitVec.getLsbD_of_ge b 31 (by omega)]
    simp
  · simp only [packTob, BitVec.getLsbD_or, BitVec.getLsbD_shiftLeft, BitVec.getLsbD_setWidth,
      BitVec.getLsbD_ofBool, BitVec.getLsbD_of_ge a 14 (by omega),
      BitVec.getLsbD_of_ge b 30 (by omega)]
    simp

theorem extractLsb'_packTob_ask : (packTob x y a b).extractLsb' 16 m = a := by
  refine BitVec.eq_of_getLsbD_eq fun k hk => ?_
  have h31 : 16 + k < 31 := by omega
  have h30 : 16 + k < 30 := by omega
  have h32 : 16 + k < 32 := by omega
  have hlow : k < 32 := by omega
  simp only [packTob, BitVec.getLsbD_extractLsb', BitVec.getLsbD_or, BitVec.getLsbD_shiftLeft,
    BitVec.getLsbD_setWidth, BitVec.getLsbD_ofBool, hk, h31, h30, h32,
    BitVec.getLsbD_of_ge b (16 + k) (by omega)]
  simp [hlow]

theorem extractLsb'_packTob_bid : (packTob x y a b).extractLsb' 0 m = b := by
  refine BitVec.eq_of_getLsbD_eq fun k hk => ?_
  have h31 : k < 31 := by omega
  have h30 : k < 30 := by omega
  have h16 : k < 16 := by omega
  have h32 : k < 32 := by omega
  simp [packTob, hk, h31, h30, h32, h16]

end Pack

/-- A book that is shown is in its word. -/
theorem RefBook.Shown.inWord {wselW qtyW : ℕ} {r : RefBook wselW} {b : BookBank wselW qtyW}
    (hshown : r.Shown b) (hlevels : wselW + 5 ≤ 14) :
    r.InWord (packTob b.bidPresent b.askPresent b.bestAsk b.bestBid) := by
  obtain ⟨hbid, hask⟩ := getLsbD_packTob hlevels b.bidPresent b.askPresent b.bestAsk b.bestBid
  refine ⟨?_, fun hp => ?_, ?_, fun hp => ?_⟩
  · rw [hbid, hshown.bidPresent]
  · rw [extractLsb'_packTob_bid hlevels]
    exact hshown.bestBid (hbid.symm.trans hp)
  · rw [hask, hshown.askPresent]
  · rw [extractLsb'_packTob_ask hlevels]
    exact hshown.bestAsk (hask.symm.trans hp)

namespace MmQuoting

variable {p : QuotingParams} (t : MmQuoting p) (i : QuotingIn p) (inp : ℕ → QuotingIn p)
  (s : Fin p.nSym)

/-- `tob_word` for a symbol. -/
theorem tobWord_eq (c : AxiCtrl p.toAxiParams) (u : MmQuoting p) (x : QuotingIn p)
    (hsym : c.rSym = number s) : c.tobWord (u.axiIn x.toMmIn) =
      packTob (u.bank (number s)).bidPresent (u.bank (number s)).askPresent
        (u.bank (number s)).bestAsk (u.bank (number s)).bestBid := by
  have hwide : ∀ l : BitVec (p.wselW + 5), (l.setWidth p.idxW).setWidth 32 = l.setWidth 32 := by
    intro l
    refine BitVec.eq_of_toNat_eq ?_
    rw [BitVec.toNat_setWidth, toNat_level, BitVec.toNat_setWidth]
  rw [AxiCtrl.tobWord, packTob, hsym]
  simp only [MmTop.axiIn, hwide]

end MmQuoting

/-- **A read of TOB is answered with the top of the book**: of all updates taken up to three cycles
before the read was accepted. The levels have to fit into their fields. -/
theorem tob_read {p : QuotingParams} (hlevels : p.levels ≤ 2 ^ 14) (t : MmQuoting p)
    (i : QuotingIn p) (inp : ℕ → QuotingIn p) (s : Fin p.nSym) (n : ℕ)
    (hread : t.reads i inp (n + 3) = true)
    (ha : (inp (n + 3)).araddr.toNat / 4 = (MapWord.register s 0).address / 4) :
    (t.afterReset i inp (n + 5)).ctrl.rvalid = true ∧
      (t.afterReset i inp (n + 5)).ctrl.rresp = okay ∧
      (MmQuoting.book inp s (n + 1)).InWord (t.afterReset i inp (n + 5)).ctrl.rdata := by
  set u := t.afterReset i inp (n + 4) with hu
  obtain ⟨hbusy, htarget⟩ := MmQuoting.reading hread
  obtain ⟨hkind, hsym, hidx⟩ := (MapWord.is_register_iff p.windows).mpr ha
  rw [← htarget] at hkind hsym hidx
  have hbook : u.ctrl.rK ≠ .book := by
    intro hk
    exact absurd (hkind.symm.trans hk) AxiKind.noConfusion
  have hnumber : u.ctrl.rSym = MmQuoting.number s := MmQuoting.number_eq_iff.mpr hsym
  have hzero : u.ctrl.rI = 0 := (AxiCtrl.idx_eq_iff (by decide)).mpr hidx
  have hreg : u.ctrl.readReg (u.axiIn (inp (n + 4)).toMmIn) =
      (u.ctrl.tobWord (u.axiIn (inp (n + 4)).toMmIn), okay) := by
    have hsreg : u.ctrl.rK = .sreg := hkind
    simp only [AxiCtrl.readReg, hsreg, if_pos hzero]
  have hword : p.wselW + 5 ≤ 14 := by
    rw [p.levels_eq] at hlevels
    exact (Nat.pow_le_pow_iff_right Nat.one_lt_two).mp hlevels
  have hshown : (MmQuoting.book inp s (n + 1)).Shown (u.bank (MmQuoting.number s)) := by
    rw [hu, MmQuoting.bank_eq, ← MmQuoting.refBook_eq t i]
    exact BookBank.shown _ _ _ n
  obtain ⟨hvalid, hdata, hresp⟩ := AxiCtrl.edge_answers
    (i := u.axiIn (inp (n + 4)).toMmIn) hbusy hbook
  rw [hreg] at hdata hresp
  refine ⟨hvalid, hresp, ?_⟩
  have hrdata : (t.afterReset i inp (n + 5)).ctrl.rdata =
      u.ctrl.tobWord (u.axiIn (inp (n + 4)).toMmIn) := hdata
  rw [hrdata, MmQuoting.tobWord_eq s u.ctrl u (inp (n + 4)) hnumber]
  exact hshown.inWord hword

namespace MmPair

theorem le_levels : 128 ≤ 128 := le_rfl

theorem levels_eq : 128 = 2 ^ (2 + 5) := by norm_num

theorem posW_eq : 32 = 32 := rfl

theorem le_aw : Nat.clog 2 128 + 6 ≤ 24 := by
  decide +kernel

theorem windows : Nat.clog 2 2 + (Nat.clog 2 128 + 4) + 1 ≤ 24 := by
  decide +kernel

/-- Two symbols of 128 levels. -/
def params : QuotingParams where
  nSym := 2
  levels := 128
  qtyW := 32
  posW := 32
  aw := 24
  two_le_nSym := Nat.one_lt_two
  le_levels := le_levels
  le_aw := le_aw
  wselW := 2
  levels_eq := levels_eq
  windows := windows
  posW_eq := posW_eq

/-- Bids of 5 come in for the second symbol in every cycle, and its TOB is read in cycle 303. The
books are being cleared up to cycle 255. -/
def polling (n : ℕ) : QuotingIn params where
  awaddr := 0
  awvalid := false
  wdata := 0
  wvalid := false
  bready := true
  araddr := 0x800800#24
  arvalid := n == 303
  rready := true
  updValid := true
  updSym := 1
  updSide := false
  updIdx := 3
  updDelta := 5
  position := fun _ => 0
  posUpdate := fun _ => false

/-- The slave at power-up. -/
def ctrl : AxiCtrl params.toAxiParams where
  bvalid := false
  bresp := 0
  quoteEnable := false
  hsR := fun _ => 0
  limR := fun _ => 0
  cfgSym := 0
  cfgLutWe := false
  cfgLutAddr := 0
  cfgLutData := 0
  cfgLutSwap := false
  rdBusy := false
  rK := .none
  rSym := 0
  rI := 0
  rvalid := false
  rresp := 0
  rdata := 0
  hostRdReq := false
  hostRdSym := 0
  hostRdAddr := 0

/-- All at power-up. -/
def powerUp : MmQuoting params where
  ctrl := ctrl
  bank := fun _ => .resting fun _ => 0
  engine := fun _ => QuoteEngine.skewed params.idxW

/-- The bids for the second symbol when it is read. -/
def bids (l : BitVec 7) : ℕ := MmQuoting.book polling ⟨1, Nat.one_lt_two⟩ 301 false l

/-- They are on one level. -/
theorem bids_ne_zero : ∀ l, bids l ≠ 0 ↔ l = 3 := by decide +kernel

end MmPair

/-- The word that is read has the bid. -/
theorem tob_read_bid :
    (MmPair.powerUp.afterReset (MmPair.polling 0) MmPair.polling 305).ctrl.rvalid = true ∧
      (MmPair.powerUp.afterReset (MmPair.polling 0) MmPair.polling 305).ctrl.rresp = okay ∧
      (MmPair.powerUp.afterReset (MmPair.polling 0) MmPair.polling 305).ctrl.rdata.getLsbD 31 =
        true ∧
      (MmPair.powerUp.afterReset (MmPair.polling 0) MmPair.polling 305).ctrl.rdata.extractLsb' 0 7 =
        3 := by
  obtain ⟨hvalid, hresp, hword⟩ := tob_read (by decide) MmPair.powerUp (MmPair.polling 0)
    MmPair.polling ⟨1, Nat.one_lt_two⟩ 300 (by decide +kernel) (by decide +kernel)
  have hbid := hword.bidPresent.mpr ⟨3, (MmPair.bids_ne_zero 3).mpr rfl⟩
  exact ⟨hvalid, hresp, hbid, (MmPair.bids_ne_zero _).mp (hword.bestBid hbid).1⟩

end Fmma
