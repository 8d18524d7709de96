import Fmma.Board.Quoting

/-!
# Quoting anew after a trade

A tick that trades, or is rejected, leaves the quotes in place. Nothing makes the next one quote
anew: the trade test comes first, and against the same quotes. A market that stays at our price or
beyond it trades on every tick. Of two consecutive two-sided quotes one is followed by `SET_QUOTES`
as long as the market comes back inside the quotes after each trade (`Quoting.Returns`).
-/

namespace Fmma

namespace Quoting

/-- Of two consecutive two-sided quotes one is followed by `SET_QUOTES`. -/
def Alternates (h : Quoting) : Prop := h.requoted.IsChain fun later earlier => later || earlier

/-- The last two-sided quote was followed by a decision. -/
def Traded (h : Quoting) : Prop := h.requoted.head? = some false

instance (h : Quoting) : Decidable h.Traded := inferInstanceAs (Decidable (_ = _))

instance (p : Pair) (bid ask : Word) : Decidable (Inside p bid ask) := instDecidableOr

/-- Where the program may decide: after a trade, not before the market has come back. -/
def Turn (t : Thread) (h : Quoting) : Prop :=
  match t.point with
  | .commit _ => t.regs.bid ≠ 0 → t.regs.ask ≠ 0 → h.Traded →
      Inside h.resting t.regs.bid t.regs.ask
  | .enable _ => ¬h.Traded
  | _ => True

/-- The invariant of the board, in runs that meet the condition. -/
structure Settled (t : Thread) (h : Quoting) : Prop extends Inv t h where
  turn : h.Turn t
  alternates : h.Alternates

variable {t : Thread} {m : Addr → Word} {h h' : Quoting} {r : Regs} {y : Access Addr Word}

/-- A quote may be followed by what goes with the one before. -/
theorem Alternates.cons (ha : h.Alternates) {b : Bool} (hb : b = false → ¬h.Traded) :
    (b :: h.requoted).IsChain fun later earlier => later || earlier := by
  rw [Alternates] at ha
  rw [Traded] at hb
  cases hl : h.requoted with
  | nil => exact .singleton b
  | cons c l =>
    rw [hl] at ha hb
    refine .cons_cons ?_ ha
    cases b with
    | true => rfl
    | false =>
      cases c with
      | true => rfl
      | false => exact absurd rfl (hb rfl)

/-- **A market inside the quotes does not trade.** -/
theorem Turn.consider {seq : Word} (hb : h.Body ⟨.commit seq, r⟩) (ht : h.Turn ⟨.commit seq, r⟩) :
    h.Turn (Strategy.marketMaker.consider { r with tick := seq }) := by
  obtain ⟨⟨hanchor, hask2⟩, -⟩ := hb
  have hinside (hbid : r.bid ≠ 0) (hask : r.ask ≠ 0) (hne : r.anchor ≠ 0) (htraded : h.Traded) :
      (r.bid + r.bid).toInt < r.ask2.toInt ∧ r.anchor.toInt < (r.ask + r.ask).toInt := by
    have hin := ht hbid hask htraded
    rw [Inside, ← hanchor, ← hask2] at hin
    exact hin.resolve_left hne
  simp only [Strategy.consider, Strategy.setQuotes]
  split_ifs with hbid hask hzero hsell hbuy
  · trivial
  · trivial
  · trivial
  · trivial
  · exact fun htraded => absurd (hinside hbid hask hzero htraded).2 ‹_›
  · exact fun htraded => absurd (hinside hbid hask hzero htraded).1 ‹_›

/-- The steps without an access. -/
theorem Settled.internal (hI : Settled t h) (hnone : t.access .marketMaker = none) :
    Settled (t.step .marketMaker m) h := by
  refine ⟨hI.toInv.internal hnone, ?_, hI.alternates⟩
  have hbody := hI.body
  have hturn := hI.turn
  rw [Thread.step_none hnone]
  obtain ⟨point, r⟩ := t
  cases point with
  | loop => trivial
  | addFill b q => trivial
  | commit seq => exact hturn.consider hbody
  | _ => cases hnone

/-- The consumed quotes go on alternating. -/
theorem Settled.alternates_access (hI : Settled t h) (hy : t.access .marketMaker = some y) :
    (h.observe (Strategy.marketMaker.pcOf t.point) y m).Alternates := by
  have hturn := hI.turn
  have halternates := hI.alternates
  obtain ⟨point, r⟩ := t
  cases point with
  | enable side =>
    cases hy
    exact halternates.cons fun _ => hturn
  | quoteAsk =>
    cases hy
    exact halternates.cons (by rintro ⟨⟩)
  | clear i =>
    cases hy
    rw [observe_clear]
    exact halternates
  | _ => first
    | (cases hy; done)
    | (cases hy; exact halternates)

/-- The condition is one on the quote that is consumed. -/
theorem Settled.turn_access (hI : Settled t h) (hy : t.access .marketMaker = some y)
    (hreturns : h.Returns (Strategy.marketMaker.pcOf t.point) y m) :
    (h.observe (Strategy.marketMaker.pcOf t.point) y m).Turn (t.step .marketMaker m) := by
  have heaten := hI.eaten
  obtain ⟨point, r⟩ := t
  cases point with
  | tickSeq2 seq =>
    cases hy
    obtain ⟨hreads, hbid, hask⟩ := heaten
    rw [Thread.step_load rfl]
    simp only [Thread.resume]
    split_ifs with hseq
    · intro hbidne haskne htraded
      change r.bid ≠ 0 at hbidne
      change r.ask ≠ 0 at haskne
      change h.eaten.reading.bid = r.bid at hbid
      change h.eaten.reading.ask = r.ask at hask
      have hinside := hreturns rfl rfl (hseq.trans hreads.counter.symm) (hbid ▸ hbidne)
        (hask ▸ haskne) htraded
      rw [hbid, hask] at hinside
      exact hinside
    · trivial
  | initPosition =>
    cases hy
    trivial
  | clear i =>
    cases hy
    rw [Thread.step_store rfl]
    simp only [Thread.resume]
    split_ifs <;> trivial
  | restart =>
    cases hy
    rw [Thread.step_load rfl]
    simp only [Thread.resume]
    split_ifs <;> trivial
  | fillSeq =>
    cases hy
    rw [Thread.step_load rfl]
    simp only [Thread.resume]
    split_ifs <;> trivial
  | tickSeq =>
    cases hy
    rw [Thread.step_load rfl]
    simp only [Thread.resume]
    split_ifs <;> trivial
  | enable side =>
    cases hy
    rw [Thread.step_load rfl]
    simp only [Thread.resume]
    split_ifs <;> trivial
  | maxPos side =>
    cases hy
    rw [Thread.step_load rfl]
    simp only [Thread.resume]
    split_ifs <;> trivial
  | thresh sum => exact hI.body.elim
  | _ => first
    | (cases hy; done)
    | (cases hy; trivial)

end Quoting

theorem returningMarket_onlyShared : returningMarket.OnlyShared :=
  fun h m x h' hx => market_onlyShared h m x h' hx.1

/-- **The program quotes anew after a trade**: in every run in which the market comes back inside
the quotes after each trade, of two consecutive two-sided quotes one is followed by `SET_QUOTES`.
Every two-sided quote that has been consumed is in the list, but for one that is under way. -/
theorem requotes {c : Cpu} {h : Quoting}
    (hr : cpuMachine.Reachable returningMarket (boot .marketMaker Quoting.Starts) (c, h)) :
    h.Alternates ∧ h.requoted.length ≤ h.consumed ∧ h.consumed ≤ h.requoted.length + 1 := by
  obtain ⟨t, -, -, hI⟩ := board_invariant .marketMaker returningMarket_onlyShared
    (I := fun t _ h => Quoting.Settled t h)
    (fun r m h hs => ⟨hs.inv, trivial, by rw [Quoting.Alternates, hs.requoted]; exact .nil⟩)
    (fun t m h hI hnone => hI.internal hnone)
    (fun t m h x hI hx hp => ⟨hI.toInv.access hx, hI.turn_access hx hp.2, hI.alternates_access hx⟩)
    (fun t m h x h' hI hx => hx.1.1 ▸ hI) (fun t m h h' r _ hreset => hreset.elim) hr
  refine ⟨hI.alternates, ?_⟩
  by_cases hunder : Quoting.UnderWay t
  · have hcount := hI.counted.underWay hunder
    omega
  · have hcount := hI.counted.done hunder
    omega

/-! ### Concrete runs -/

/-- What the host stores for a quote, with the switch on and a limit of ten lots. -/
def quoteLines (seq bidPrice askPrice : Word) : List (Line (Addr × Word)) :=
  [.host (cfgEnable, 1), .host (cfgMaxPos, 10), .host (bid, bidPrice), .host (ask, askPrice),
    .host (tickSeq, seq)]

/-- The market goes to our ask and comes back: the program quotes, sells and quotes anew. -/
theorem requotes_round_trip : ∃ h : Quoting, h.requoted = [true, false, true] ∧ h.Alternates ∧
    h.requoted.length ≤ h.consumed ∧ h.consumed ≤ h.requoted.length + 1 := by
  obtain ⟨t, c, h, hr, -, hP⟩ := (marketDirector.restrict Quoting.Returns (fun _ _ _ => True)
    (fun a => Strategy.marketMaker.pcOf a.1.1.point = Strategy.marketMaker.secondRead → a.2.Traded →
      Quoting.Inside a.2.resting a.2.eaten.reading.bid a.2.eaten.reading.ask)
    fun a h0 _ _ _ hi _ _ _ ht => of_decide_eq_true h0 hi ht
    ).exists_reachable returningMarket_onlyShared (fun _ _ h => h) Quoting.Starts
    (m := marketRam 100 102 5) (h := .cold) ⟨rfl, rfl, rfl⟩
    ([.cpu 24] ++ quoteLines 4 110 112 ++ [.cpu 16] ++ quoteLines 6 100 102 ++ [.cpu 13])
    (P := fun a => a.2.requoted = [true, false, true]) (by decide +kernel)
  exact ⟨h, of_decide_eq_true hP, requotes hr⟩

/-- **A market that stays at our price trades on every tick.** The same bid of 110 against our ask
of 106 is published twice, and gives two signals. -/
theorem not_requotes : ¬∀ (c : Cpu) (h : Quoting),
    cpuMachine.Reachable market (boot .marketMaker Quoting.Starts) (c, h) → h.Alternates := by
  intro hall
  obtain ⟨t, c, h, hr, -, hP⟩ := marketDirector.exists_reachable market_onlyShared
    (fun _ _ h => h) Quoting.Starts (m := marketRam 100 102 5) (h := .cold) ⟨rfl, rfl, rfl⟩
    ([.cpu 24] ++ quoteLines 4 110 112 ++ [.cpu 16] ++ quoteLines 6 110 112 ++ [.cpu 16])
    (P := fun a => a.2.requoted = [false, false, true] ∧ a.1.2 signalSeq = 2) (by decide +kernel)
  obtain ⟨hrequoted, -⟩ := of_decide_eq_true hP
  change h.requoted = _ at hrequoted
  have halternates := hall c h hr
  rw [Quoting.Alternates, hrequoted] at halternates
  exact absurd halternates (by decide)

end Fmma
