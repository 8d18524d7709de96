import Fmma.Board.Quoting
import Fmma.Lib.Signed

/-!
# The published quotes

The words `SET_QUOTES` publishes, against the formulas over the integers. The doubled quotes are
right modulo `2 ^ 32`, and they are halved with a logical shift: the published words are prices
exactly when our doubled bid is not negative.
-/

namespace Fmma

/-- `FMMA_PRICE_MAX`. -/
def priceMax : ℕ := 0x3FFFFFFF

namespace Terms

/-- How far the inventory moves the quotes. -/
def lean (q : Terms) : ℤ := q.position.toInt * q.skew.toInt

/-- The doubled bid. -/
def exactBid2 (q : Terms) : ℤ := q.bid.toNat + q.ask.toNat - 2 * q.half.toNat - 2 * q.lean

/-- The doubled ask. -/
def exactAsk2 (q : Terms) : ℤ := q.bid.toNat + q.ask.toNat + 2 * q.half.toNat - 2 * q.lean

/-- The terms that are in question. -/
structure InRange (q : Terms) : Prop where
  bid : 1 ≤ q.bid.toNat ∧ q.bid.toNat ≤ priceMax
  ask : 1 ≤ q.ask.toNat ∧ q.ask.toNat ≤ priceMax
  half : q.half.toNat < 2 ^ 29
  lean : |q.lean| < 2 ^ 28

/-- Everything `SET_QUOTES` computes is right modulo `2 ^ 32`. -/
theorem ofInt_exactBid2 (q : Terms) : BitVec.ofInt 32 q.exactBid2 = q.bid2 := by
  rw [exactBid2, lean, two_mul, two_mul, Signed.ofInt_sub, Signed.ofInt_sub, BitVec.ofInt_add,
    BitVec.ofInt_add, BitVec.ofInt_add, BitVec.ofInt_mul, mul_comm]
  simp only [BitVec.ofInt_natCast, BitVec.ofNat_toNat, BitVec.setWidth_eq, BitVec.ofInt_toInt]
  rfl

theorem ofInt_exactAsk2 (q : Terms) : BitVec.ofInt 32 q.exactAsk2 = q.ask2 := by
  rw [exactAsk2, lean, two_mul, two_mul, Signed.ofInt_sub, BitVec.ofInt_add, BitVec.ofInt_add,
    BitVec.ofInt_add, BitVec.ofInt_add, BitVec.ofInt_mul, mul_comm]
  simp only [BitVec.ofInt_natCast, BitVec.ofNat_toNat, BitVec.setWidth_eq, BitVec.ofInt_toInt]
  rfl

variable {q : Terms}

/-- The doubled quotes are in order, and below `2 ^ 32`. -/
theorem InRange.bounds (h : q.InRange) :
    q.exactAsk2 = q.exactBid2 + 4 * q.half.toNat ∧ q.exactAsk2 < 2 ^ 32 := by
  obtain ⟨⟨-, hbid⟩, ⟨-, hask⟩, hhalf, hlean⟩ := h
  rw [priceMax] at hbid hask
  obtain ⟨hlo, -⟩ := abs_lt.mp hlean
  rw [exactAsk2, exactBid2]
  constructor <;> omega

end Terms

namespace Publication

/-- `q` has been published in some run, beside some host. -/
def Made (q : Publication) : Prop :=
  ∃ c h, cpuMachine.Reachable market (boot .marketMaker Quoting.Starts) (c, h) ∧ q ∈ h.published

/-- **The published words are prices**: in order, of the configured width, without a bit that comes
from a negative number or from one beyond `2 ^ 32`, and the bid is the lower the more the inventory
leans. -/
structure Right (q : Publication) : Prop where
  ordered : q.quoteBid.toInt ≤ q.quoteAsk.toInt
  width : q.quoteAsk.toInt - q.quoteBid.toInt = 2 * q.terms.half.toNat
  bid : q.quoteBid.toInt = q.terms.exactBid2 / 2
  ask : q.quoteAsk.toInt = q.terms.exactAsk2 / 2
  leans : ∀ p : Publication, p.Made → p.terms.InRange → p.terms.bid = q.terms.bid →
    p.terms.ask = q.terms.ask → p.terms.half = q.terms.half → p.terms.lean ≤ q.terms.lean →
      q.quoteBid.toInt ≤ p.quoteBid.toInt

variable {p q : Publication}

/-- What is published is halved with a shift. -/
theorem Made.halved (h : q.Made) : Quoting.Halved q := by
  obtain ⟨c, k, hr, hq⟩ := h
  obtain ⟨t, -, hI⟩ := market_invariant hr
  exact hI.halved q hq

/-- Quotes that are not negative are published as they are. -/
theorem Made.exact (h : q.Made) (hr : q.terms.InRange) (hpos : 0 ≤ q.terms.exactBid2) :
    q.quoteBid.toInt = q.terms.exactBid2 / 2 ∧ q.quoteAsk.toInt = q.terms.exactAsk2 / 2 := by
  obtain ⟨hbid, hask⟩ := h.halved
  obtain ⟨hwidth, hlt⟩ := hr.bounds
  rw [hbid, hask, ← Terms.ofInt_exactBid2, ← Terms.ofInt_exactAsk2]
  constructor
  · exact Signed.toInt_half_ofInt hpos (by omega)
  · exact Signed.toInt_half_ofInt (by omega) hlt

/-- **The published words are prices exactly when the doubled bid is not negative.** -/
theorem right_iff (h : q.Made) (hr : q.terms.InRange) : Right q ↔ 0 ≤ q.terms.exactBid2 := by
  obtain ⟨hwidth, -⟩ := hr.bounds
  constructor
  · intro hright
    have hhalf := hright.bid
    rw [h.halved.1, Signed.toInt_half] at hhalf
    omega
  · intro hpos
    obtain ⟨hbid, hask⟩ := h.exact hr hpos
    refine ⟨by omega, by omega, hbid, hask, ?_⟩
    intro p hp hrp hpbid hpask hphalf hlean
    have hle : q.terms.exactBid2 ≤ p.terms.exactBid2 := by
      rw [Terms.exactBid2, Terms.exactBid2, hpbid, hpask, hphalf]
      omega
    rw [hbid, (hp.exact hrp (hpos.trans hle)).1]
    exact Int.ediv_le_ediv two_pos hle

/-- What `SET_QUOTES` publishes first, from the quote it finds in the RAM. -/
theorem made_of_play (bid ask half : Word)
    (h : (marketDirector.play [.cpu 24]
      ((Strategy.marketMaker.cold, Strategy.marketMaker.install (marketRam bid ask half)),
        Quoting.cold)).any (fun a => a.2.published = [q]) = true) : q.Made := by
  obtain ⟨t, c, k, hr, -, hP⟩ := marketDirector.exists_reachable market_onlyShared
    (fun _ _ h => h) Quoting.Starts ⟨rfl, rfl, rfl⟩ [.cpu 24] h
  have hpublished : k.published = [q] := of_decide_eq_true hP
  exact ⟨c, k, hr, hpublished ▸ List.mem_singleton_self q⟩

/-- The equivalence at work: 100 and 102, quoted 5 to either side of the mid. -/
theorem right_iff_100 : Right ⟨⟨100, 102, 0, 0, 5⟩, 96, 106⟩ :=
  (right_iff (made_of_play 100 102 5 (by decide +kernel))
    ⟨by decide, by decide, by decide, by decide⟩).mpr (by decide)

/-- **A price below the half-spread is quoted at the top of the range**: with a market of 1 and 1
and a half-spread of 2 our bid is -1, and `QUOTE_BID` is published as `2 ^ 31 - 1`. -/
theorem not_right : ¬∀ q : Publication, q.Made → q.terms.InRange → Right q := by
  intro hall
  have hright := hall ⟨⟨1, 1, 0, 0, 2⟩, 0x7FFFFFFF, 3⟩
    (made_of_play 1 1 2 (by decide +kernel))
    ⟨by decide, by decide, by decide, by decide⟩
  exact absurd hright.ordered (by decide)

end Publication

end Fmma
