import Fmma.Rtl.QuoteEngine
import Mathlib.Tactic.NormNum

/-!
# The quotes

What the engine shows two clocks after a trigger, against the prices over the integers that its
specification names. The working width has room for them from 128 levels on; with 64 levels a price
far off the grid can wrap, and come back as one that is on it.
-/

namespace Fmma

namespace QuoteEngine

variable {idxW : ℕ}

/-! ### The specification -/

/-- The bucket of a position. -/
def bucketOf (position : ℤ) : ℤ := min 63 (max 0 (position / 16 + 32))

/-- The skew table that is live. -/
def table (s : QuoteEngine idxW) (k : ℤ) : ℤ :=
  (s.skewLut (BitVec.cons s.liveBuf (BitVec.ofNat 6 k.toNat))).toInt

/-- The skew at a position. -/
def skew (s : QuoteEngine idxW) (i : QuoteIn idxW) : ℤ := s.table (bucketOf i.position.toInt)

/-- The fair price. -/
def fairOf (i : QuoteIn idxW) : ℤ := (i.bestBid.toNat + i.bestAsk.toNat) / 2

/-- The bid before it is kept below the best ask. The spread is that of the second clock. -/
def exactBid (s : QuoteEngine idxW) (i j : QuoteIn idxW) : ℤ :=
  fairOf i - j.halfSpread.toNat - s.skew i

/-- The ask before it is kept above the best bid. -/
def exactAsk (s : QuoteEngine idxW) (i j : QuoteIn idxW) : ℤ :=
  fairOf i + j.halfSpread.toNat - s.skew i

/-- `pb`. -/
def pb (s : QuoteEngine idxW) (i j : QuoteIn idxW) : ℤ :=
  min (s.exactBid i j) (i.bestAsk.toNat - 1)

/-- `pa`. -/
def pa (s : QuoteEngine idxW) (i j : QuoteIn idxW) : ℤ :=
  max (s.exactAsk i j) (i.bestBid.toNat + 1)

/-- There is a market to quote in, and quotes are enabled. -/
structure Market (i j : QuoteIn idxW) : Prop where
  enable : j.quoteEnable = true
  bidPresent : i.bidPresent = true
  askPresent : i.askPresent = true
  uncrossed : i.bestBid < i.bestAsk

/-- **The specification** of the engine: `s` has the registers before the trigger, `i` and `j` are
the inputs of its clock and of the next one, and `t` has the registers after both. -/
structure Quotes (s : QuoteEngine idxW) (i j : QuoteIn idxW) (t : QuoteEngine idxW) : Prop where
  valid : t.qValid = true
  bidEn : t.qBidEn = true ↔
    Market i j ∧ i.position.toInt < i.posLimit.toInt ∧ 0 ≤ s.pb i j
  bid : t.qBidEn = true → (t.qBid.toNat : ℤ) = s.pb i j
  askEn : t.qAskEn = true ↔
    Market i j ∧ -i.posLimit.toInt < i.position.toInt ∧ s.pa i j ≤ 2 ^ idxW - 1
  ask : t.qAskEn = true → (t.qAsk.toNat : ℤ) = s.pa i j
  belowAsk : t.qBidEn = true → t.qBid < i.bestAsk
  aboveBid : t.qAskEn = true → i.bestBid < t.qAsk
  ordered : t.qBidEn = true → t.qAskEn = true → t.qBid ≤ t.qAsk

/-- The prices have room in a signed word of `IDX_W + 3` bits, on a side that quotes. -/
structure Room (s : QuoteEngine idxW) (i j : QuoteIn idxW) : Prop where
  bid : Market i j → i.position.toInt < i.posLimit.toInt → -2 ^ (idxW + 2) ≤ s.exactBid i j
  ask : Market i j → -i.posLimit.toInt < i.position.toInt → s.exactAsk i j < 2 ^ (idxW + 2)

/-! ### The bucket -/

/-- The shift of the position is a division. -/
theorem toInt_sshiftRight_four (position : BitVec 32) :
    (position.sshiftRight 4).toInt = position.toInt / 16 := by
  rw [BitVec.toInt_sshiftRight, Int.shiftRight_eq_div_pow]
  rfl

theorem toNat_bucket (position : BitVec 32) :
    ((bucket position).toNat : ℤ) = bucketOf position.toInt := by
  rw [bucketOf, ← toInt_sshiftRight_four, bucket]
  set p := position.sshiftRight 4
  by_cases hhi : 31 < p.toInt
  · rw [if_pos hhi, BitVec.toNat_allOnes]
    omega
  by_cases hlo : p.toInt < -32
  · rw [if_neg hhi, if_pos hlo]
    have hzero : (0 : BitVec 6).toNat = 0 := rfl
    rw [hzero]
    omega
  have hbit : p.getLsbD 5 = decide (p.toInt < 0) := by
    rw [← BitVec.testBit_toNat, Nat.testBit_eq_decide_div_mod_eq, BitVec.toInt_eq_toNat_cond]
    refine decide_eq_decide.mpr ?_
    rw [BitVec.toInt_eq_toNat_cond] at hhi hlo
    have hlt := p.isLt
    split_ifs at hhi hlo ⊢ <;> omega
  have hlow : ((p.extractLsb' 0 5).toNat : ℤ) = p.toInt % 32 := by
    rw [BitVec.extractLsb'_toNat, Nat.shiftRight_zero, BitVec.toInt_eq_toNat_cond]
    split_ifs <;> omega
  have hcons : ((BitVec.cons (!p.getLsbD 5) (p.extractLsb' 0 5)).toNat : ℤ) =
      (if p.toInt < 0 then 0 else 32) + p.toInt % 32 := by
    rw [BitVec.toNat_cons', hbit, ← hlow]
    by_cases hneg : p.toInt < 0
    · rw [decide_eq_true hneg, if_pos hneg]
      simp
    · rw [decide_eq_false hneg, if_neg hneg]
      simp
  rw [if_neg hhi, if_neg hlo, hcons]
  split_ifs <;> omega

/-! ### The prices -/

section

variable (s : QuoteEngine idxW) (i j : QuoteIn idxW)

theorem toInt_bidS : (edge false s i).bidS.toInt = i.bestBid.toNat :=
  Signed.toInt_setWidth (w := idxW + 2) i.bestBid (by omega)

theorem toInt_askS : (edge false s i).askS.toInt = i.bestAsk.toNat :=
  Signed.toInt_setWidth (w := idxW + 2) i.bestAsk (by omega)

theorem toInt_hs (h : 6 ≤ idxW) : (hs j).toInt = j.halfSpread.toNat :=
  Signed.toInt_setWidth (w := idxW + 2) j.halfSpread (by omega)

theorem toInt_sk (h : 6 ≤ idxW) : (edge false s i).sk.toInt = s.skew i := by
  have hbucket : bucket i.position = BitVec.ofNat 6 (bucketOf i.position.toInt).toNat := by
    refine BitVec.eq_of_toNat_eq ?_
    have hnat := toNat_bucket i.position
    have hlt := (bucket i.position).isLt
    rw [BitVec.toNat_ofNat, ← hnat, Int.toNat_natCast, Nat.mod_eq_of_lt hlt]
  have hsk : (edge false s i).sk.toInt =
      (s.skewLut (BitVec.cons s.liveBuf (bucket i.position))).toInt :=
    BitVec.toInt_signExtend_of_le (by omega)
  rw [hsk, hbucket]
  rfl

/-- The bounds of what goes into a price. -/
theorem bounds : (i.bestBid.toNat : ℤ) < 2 ^ idxW ∧ (i.bestAsk.toNat : ℤ) < 2 ^ idxW ∧
    j.halfSpread.toNat < 256 ∧ -128 ≤ s.skew i ∧ s.skew i < 128 := by
  refine ⟨by exact_mod_cast i.bestBid.isLt, by exact_mod_cast i.bestAsk.isLt, j.halfSpread.isLt,
    ?_, ?_⟩
  · exact BitVec.le_toInt _
  · exact BitVec.toInt_lt

/-- The width of the grid, and that of a word. -/
theorem widths (h : 6 ≤ idxW) : (64 : ℤ) ≤ 2 ^ idxW ∧ (2 : ℤ) ^ (idxW + 2) = 4 * 2 ^ idxW ∧
    (2 : ℤ) ^ (idxW + 2 + 1) = 8 * 2 ^ idxW := by
  refine ⟨?_, by ring, by ring⟩
  calc (64 : ℤ) = 2 ^ 6 := by norm_num
    _ ≤ 2 ^ idxW := pow_le_pow_right₀ (by norm_num) h

theorem toInt_fair (h : 6 ≤ idxW) : (edge false s i).fair.toInt = fairOf i := by
  obtain ⟨hbid, hask, -⟩ := bounds s i i
  obtain ⟨hgrid, hroom, -⟩ := widths h
  have hsum : ((edge false s i).bidS + (edge false s i).askS).toInt =
      i.bestBid.toNat + i.bestAsk.toNat := by
    rw [BitVec.toInt_add, toInt_bidS, toInt_askS]
    refine Signed.bmod_of_mem (w := idxW + 2) ?_ ?_ <;> rw [hroom] <;> omega
  rw [fair, BitVec.toInt_sshiftRight, hsum, Int.shiftRight_eq_div_pow]
  rfl

theorem toInt_rawBid (h : 6 ≤ idxW) : ((edge false s i).rawBid j).toInt =
    (s.exactBid i j).bmod (2 ^ (idxW + 2 + 1)) := by
  rw [rawBid, BitVec.toInt_sub, BitVec.toInt_sub, toInt_fair s i h, toInt_hs j h, toInt_sk s i h,
    Int.bmod_sub_bmod]
  rfl

theorem toInt_rawAsk (h : 6 ≤ idxW) : ((edge false s i).rawAsk j).toInt =
    (s.exactAsk i j).bmod (2 ^ (idxW + 2 + 1)) := by
  rw [rawAsk, BitVec.toInt_sub, BitVec.toInt_add, toInt_fair s i h, toInt_hs j h, toInt_sk s i h,
    Int.bmod_sub_bmod]
  rfl

/-- The bid, where it has room and where it has not. -/
theorem toInt_cBid (h : 6 ≤ idxW) : ((edge false s i).cBid j).toInt =
    if -2 ^ (idxW + 2) ≤ s.exactBid i j then s.pb i j else i.bestAsk.toNat - 1 := by
  obtain ⟨hbid, hask, hspread, hlo, hhi⟩ := bounds s i j
  obtain ⟨hgrid, hroom, hword⟩ := widths h
  have hfair : 0 ≤ fairOf i ∧ fairOf i < 2 ^ idxW := by
    rw [fairOf]
    omega
  have hpred : ((edge false s i).askS - 1).toInt = i.bestAsk.toNat - 1 := by
    rw [BitVec.toInt_sub, toInt_askS, Signed.toInt_one (w := idxW + 2) (by omega)]
    refine Signed.bmod_of_mem (w := idxW + 2) ?_ ?_ <;> rw [hroom] <;> omega
  rw [cBid, apply_ite BitVec.toInt, hpred, toInt_askS, toInt_rawBid s i j h, pb]
  by_cases hfits : -2 ^ (idxW + 2) ≤ s.exactBid i j
  · have hexact : s.exactBid i j < 2 ^ (idxW + 2) := by
      rw [exactBid, hroom]
      omega
    rw [if_pos hfits, Signed.bmod_of_mem hfits hexact]
    split_ifs <;> omega
  · have hlow : -2 ^ (idxW + 2 + 1) - 2 ^ (idxW + 2) ≤ s.exactBid i j := by
      rw [exactBid, hroom, hword]
      omega
    rw [if_neg hfits, Signed.bmod_of_low hlow (not_le.mp hfits), if_pos]
    rw [exactBid, hword]
    omega

/-- The ask. -/
theorem toInt_cAsk (h : 6 ≤ idxW) : ((edge false s i).cAsk j).toInt =
    if s.exactAsk i j < 2 ^ (idxW + 2) then s.pa i j else i.bestBid.toNat + 1 := by
  obtain ⟨hbid, hask, hspread, hlo, hhi⟩ := bounds s i j
  obtain ⟨hgrid, hroom, hword⟩ := widths h
  have hfair : 0 ≤ fairOf i ∧ fairOf i < 2 ^ idxW := by
    rw [fairOf]
    omega
  have hsucc : ((edge false s i).bidS + 1).toInt = i.bestBid.toNat + 1 := by
    rw [BitVec.toInt_add, toInt_bidS, Signed.toInt_one (w := idxW + 2) (by omega)]
    refine Signed.bmod_of_mem (w := idxW + 2) ?_ ?_ <;> rw [hroom] <;> omega
  rw [cAsk, apply_ite BitVec.toInt, hsucc, toInt_bidS, toInt_rawAsk s i j h, pa]
  by_cases hfits : s.exactAsk i j < 2 ^ (idxW + 2)
  · have hexact : -2 ^ (idxW + 2) ≤ s.exactAsk i j := by
      rw [exactAsk, hroom]
      omega
    rw [if_pos hfits, Signed.bmod_of_mem hexact hfits]
    split_ifs <;> omega
  · have hhigh : s.exactAsk i j < 2 ^ (idxW + 2 + 1) + 2 ^ (idxW + 2) := by
      rw [exactAsk, hroom, hword]
      omega
    rw [if_neg hfits, Signed.bmod_of_high (not_lt.mp hfits) hhigh, if_pos]
    rw [exactAsk, hword]
    omega

/-! ### The enables -/

/-- What the two enables have in common. -/
theorem market_iff (pos grid : Prop) : ((j.quoteEnable = true ∧
      (i.bidPresent = true ∧ i.askPresent = true) ∧ i.bestBid < i.bestAsk) ∧ pos) ∧ grid ↔
    Market i j ∧ pos ∧ grid := by
  constructor
  · rintro ⟨⟨⟨hen, ⟨hbid, hask⟩, hlt⟩, hpos⟩, hgrid⟩
    exact ⟨⟨hen, hbid, hask, hlt⟩, hpos, hgrid⟩
  · rintro ⟨⟨hen, hbid, hask, hlt⟩, hpos, hgrid⟩
    exact ⟨⟨⟨hen, ⟨hbid, hask⟩, hlt⟩, hpos⟩, hgrid⟩

theorem qBidEn_iff : (edge false (edge false s i) j).qBidEn = true ↔
    Market i j ∧ i.position.toInt < i.posLimit.toInt ∧
      0 ≤ ((edge false s i).cBid j).toInt := by
  have hedge : (edge false (edge false s i) j).qBidEn =
      (j.quoteEnable && (i.bidPresent && i.askPresent && decide (i.bestBid < i.bestAsk)) &&
        !decide (i.posLimit.toInt ≤ i.position.toInt) && (edge false s i).bidOnGrid j) := rfl
  rw [hedge, bidOnGrid]
  simp only [Bool.and_eq_true, decide_eq_true_eq, Bool.not_eq_true',
    decide_eq_false_iff_not, not_le]
  exact market_iff i j _ _

/-- The limit is negated in 32 bits, which a positive one survives. -/
theorem toInt_neg_posLimit (hlim : 0 < i.posLimit.toInt) :
    (-i.posLimit).toInt = -i.posLimit.toInt := by
  refine BitVec.toInt_neg_of_ne_intMin ?_
  intro hmin
  rw [hmin] at hlim
  exact absurd hlim (by decide)

theorem qAskEn_iff (hlim : 0 < i.posLimit.toInt) : (edge false (edge false s i) j).qAskEn = true ↔
    Market i j ∧ -i.posLimit.toInt < i.position.toInt ∧
      ((edge false s i).cAsk j).toInt ≤ 2 ^ idxW - 1 := by
  have hedge : (edge false (edge false s i) j).qAskEn =
      (j.quoteEnable && (i.bidPresent && i.askPresent && decide (i.bestBid < i.bestAsk)) &&
        !decide (i.position.toInt ≤ (-i.posLimit).toInt) && (edge false s i).askOnGrid j) := rfl
  rw [hedge, askOnGrid, ← toInt_neg_posLimit i hlim]
  simp only [Bool.and_eq_true, decide_eq_true_eq, Bool.not_eq_true',
    decide_eq_false_iff_not, not_le]
  exact market_iff i j _ _

/-! ### The quotes -/

variable {s i j}

/-- Where the prices have room, the engine quotes as specified. -/
theorem quotes_of_room (h : 6 ≤ idxW) (htrig : i.tobValid = true ∨ i.posUpdate = true)
    (hlim : 0 < i.posLimit.toInt) (hroom : Room s i j) :
    Quotes s i j (edge false (edge false s i) j) := by
  have hcBid (hm : Market i j) (hpos : i.position.toInt < i.posLimit.toInt) :
      ((edge false s i).cBid j).toInt = s.pb i j := by
    rw [toInt_cBid s i j h, if_pos (hroom.bid hm hpos)]
  have hcAsk (hm : Market i j) (hpos : -i.posLimit.toInt < i.position.toInt) :
      ((edge false s i).cAsk j).toInt = s.pa i j := by
    rw [toInt_cAsk s i j h, if_pos (hroom.ask hm hpos)]
  have hbidEn : (edge false (edge false s i) j).qBidEn = true ↔
      Market i j ∧ i.position.toInt < i.posLimit.toInt ∧ 0 ≤ s.pb i j := by
    rw [qBidEn_iff]
    refine and_congr_right fun hm => and_congr_right fun hpos => ?_
    rw [hcBid hm hpos]
  have haskEn : (edge false (edge false s i) j).qAskEn = true ↔
      Market i j ∧ -i.posLimit.toInt < i.position.toInt ∧ s.pa i j ≤ 2 ^ idxW - 1 := by
    rw [qAskEn_iff s i j hlim]
    refine and_congr_right fun hm => and_congr_right fun hpos => ?_
    rw [hcAsk hm hpos]
  obtain ⟨hbid, hask, -⟩ := bounds s i j
  have hqBid (hen : (edge false (edge false s i) j).qBidEn = true) :
      ((edge false (edge false s i) j).qBid.toNat : ℤ) = s.pb i j := by
    obtain ⟨hm, hpos, hgrid⟩ := hbidEn.mp hen
    have hle : s.pb i j ≤ i.bestAsk.toNat - 1 := min_le_right _ _
    rw [← hcBid hm hpos] at hgrid hle ⊢
    exact Signed.toNat_setWidth (w := idxW + 2) hgrid (by omega)
  have hqAsk (hen : (edge false (edge false s i) j).qAskEn = true) :
      ((edge false (edge false s i) j).qAsk.toNat : ℤ) = s.pa i j := by
    obtain ⟨hm, hpos, hgrid⟩ := haskEn.mp hen
    have hle : (i.bestBid.toNat : ℤ) + 1 ≤ s.pa i j := le_max_right _ _
    rw [← hcAsk hm hpos] at hgrid hle ⊢
    exact Signed.toNat_setWidth (w := idxW + 2) (by omega) (by omega)
  have hordered : s.pb i j ≤ s.pa i j := by
    have hspread : (0 : ℤ) ≤ j.halfSpread.toNat := Int.natCast_nonneg _
    calc s.pb i j ≤ s.exactBid i j := min_le_left _ _
      _ ≤ s.exactAsk i j := by rw [exactBid, exactAsk]; omega
      _ ≤ s.pa i j := le_max_left _ _
  refine ⟨?_, hbidEn, hqBid, haskEn, hqAsk, ?_, ?_, ?_⟩
  · simpa [edge] using htrig
  · intro hen
    have hle : s.pb i j ≤ i.bestAsk.toNat - 1 := min_le_right _ _
    have hnat := hqBid hen
    rw [BitVec.lt_def]
    omega
  · intro hen
    have hle : (i.bestBid.toNat : ℤ) + 1 ≤ s.pa i j := le_max_right _ _
    have hnat := hqAsk hen
    rw [BitVec.lt_def]
    omega
  · intro hen hen'
    have hb := hqBid hen
    have ha := hqAsk hen'
    rw [BitVec.le_def]
    omega

/-- A price without room comes back on the grid, where the specification has none. -/
theorem room_of_quotes (h : 6 ≤ idxW) (hlim : 0 < i.posLimit.toInt)
    (hq : Quotes s i j (edge false (edge false s i) j)) : Room s i j := by
  obtain ⟨hbid, hask, -⟩ := bounds s i j
  obtain ⟨hgrid, hwide, -⟩ := widths h
  constructor
  · intro hm hpos
    by_contra hnot
    have hlt := hm.uncrossed
    rw [BitVec.lt_def] at hlt
    have hen : (edge false (edge false s i) j).qBidEn = true := by
      rw [qBidEn_iff, toInt_cBid s i j h, if_neg hnot]
      exact ⟨hm, hpos, by omega⟩
    have hle : s.pb i j ≤ s.exactBid i j := min_le_left _ _
    have hzero := (hq.bidEn.mp hen).2.2
    omega
  · intro hm hpos
    by_contra hnot
    have hlt := hm.uncrossed
    rw [BitVec.lt_def] at hlt
    have hen : (edge false (edge false s i) j).qAskEn = true := by
      rw [qAskEn_iff s i j hlim, toInt_cAsk s i j h, if_neg hnot]
      exact ⟨hm, hpos, by omega⟩
    have hle : s.exactAsk i j ≤ s.pa i j := le_max_left _ _
    have hone := (hq.askEn.mp hen).2.2
    omega

/-- From 128 levels on there is always room. -/
theorem room_of_le (h : 7 ≤ idxW) : Room s i j := by
  obtain ⟨hbid, hask, hspread, hlo, hhi⟩ := bounds s i j
  obtain ⟨-, hwide, -⟩ := widths (show 6 ≤ idxW by omega)
  have hgrid : (128 : ℤ) ≤ 2 ^ idxW :=
    calc (128 : ℤ) = 2 ^ 7 := by norm_num
      _ ≤ 2 ^ idxW := pow_le_pow_right₀ (by norm_num) h
  have hfair : 0 ≤ fairOf i ∧ fairOf i < 2 ^ idxW := by
    rw [fairOf]
    omega
  constructor
  · intro _ _
    rw [exactBid, hwide]
    omega
  · intro _ _
    rw [exactAsk, hwide]
    omega

end

/-- **Two clocks after a trigger the engine shows the specified quotes exactly when the prices have
room**: always from 128 levels on, by `room_of_le`, and with 64 levels when the price of a side that
may quote is from -256 to 255. -/
theorem quotes_exact_iff (h : 6 ≤ idxW) (s : QuoteEngine idxW) (i j : QuoteIn idxW)
    (htrig : i.tobValid = true ∨ i.posUpdate = true) (hlim : 0 < i.posLimit.toInt) :
    Quotes s i j (edge false (edge false s i) j) ↔ Room s i j :=
  ⟨room_of_quotes h hlim, quotes_of_room h htrig hlim⟩

/-- A market at 0 and 2, the widest spread, and a limit of one lot. -/
def narrowMarket (idxW : ℕ) : QuoteIn idxW where
  tobValid := true
  bidPresent := true
  askPresent := true
  bestBid := 0
  bestAsk := 2
  position := 0
  posUpdate := false
  quoteEnable := true
  halfSpread := 255
  posLimit := 1
  cfgLutWe := false
  cfgLutAddr := 0
  cfgLutData := 0
  cfgLutSwap := false

/-- The engine with the highest skew for every position. -/
def skewed (idxW : ℕ) : QuoteEngine idxW where
  skewLut := fun _ => 127
  liveBuf := false
  q0Valid := false
  q0BookOk := false
  q0LongLim := false
  q0ShortLim := false
  q0Bid := 0
  q0Ask := 0
  q0Skew := 0
  qValid := false
  qBidEn := false
  qAskEn := false
  qBid := 0
  qAsk := 0

/-- The equivalence at work, on 128 levels: both prices are off the grid, and neither side is
quoted. -/
theorem quotes_exact_iff_128 :
    Quotes (skewed 7) (narrowMarket 7) (narrowMarket 7)
      (edge false (edge false (skewed 7) (narrowMarket 7)) (narrowMarket 7)) :=
  (quotes_exact_iff (by decide) (skewed 7) (narrowMarket 7) (narrowMarket 7) (.inl rfl)
    (by decide)).mpr (room_of_le (by decide))

/-- **With 64 levels the engine quotes a bid that has wrapped**: the price is 381 below the grid,
and the bid is shown enabled at 1. -/
theorem not_quotes_exact :
    ¬ ∀ (idxW : ℕ) (s : QuoteEngine idxW) (i j : QuoteIn idxW), 6 ≤ idxW →
      (i.tobValid = true ∨ i.posUpdate = true) → 0 < i.posLimit.toInt →
        Quotes s i j (edge false (edge false s i) j) := by
  intro hall
  have hq := hall 6 (skewed 6) (narrowMarket 6) (narrowMarket 6) le_rfl (.inl rfl) (by decide)
  have hen : (edge false (edge false (skewed 6) (narrowMarket 6)) (narrowMarket 6)).qBidEn = true :=
    by decide
  exact absurd (hq.bidEn.mp hen).2.2 (by decide)

end QuoteEngine

end Fmma
