import Fmma.Board.Consumer

/-!
# Quoting

`market_maker.asm` beside a host that may store anything into the shared blocks at any time. The
record has the terms of the quotes: the market and the inventory the program has consumed, and the
words of the two quoting parameters it has loaded. From them it computes the doubled quotes that
the market is compared with (`Quoting.resting`), lists what the program publishes, and says of every
two-sided quote the program has consumed whether it quoted anew.
-/

namespace Fmma

/-- What a pair of quotes is computed from. -/
structure Terms where
  bid : Word
  ask : Word
  position : Word
  skew : Word
  half : Word
  deriving DecidableEq

namespace Terms

/-- `skew2 = 2 * position * CFG_SKEW`, in words. -/
def skew2 (q : Terms) : Word := q.skew * q.position + q.skew * q.position

/-- `qbid2 = mid2 - 2*CFG_HALF_SPREAD - skew2`, in words. -/
def bid2 (q : Terms) : Word := q.bid + q.ask - (q.half + q.half) - q.skew2

/-- `qask2 = mid2 + 2*CFG_HALF_SPREAD - skew2`, in words. -/
def ask2 (q : Terms) : Word := q.bid + q.ask + (q.half + q.half) - q.skew2

end Terms

/-- A pair of quotes, doubled. -/
structure Pair where
  bid2 : Word
  ask2 : Word

/-- The words a run of `SET_QUOTES` has published, and their terms. -/
structure Publication where
  terms : Terms
  quoteBid : Word
  quoteAsk : Word
  deriving DecidableEq

/-- The record of a run of `market_maker.asm`. -/
structure Quoting where
  eaten : Consumer
  /-- The words of `CFG_SKEW` and `CFG_HALF_SPREAD` that were loaded last. -/
  skew : Word
  half : Word
  /-- The quotes of the last `SET_QUOTES`, or zeros since `INIT`. -/
  resting : Pair
  /-- The last word stored to `QUOTE_BID`. -/
  quoteBid : Word
  /-- What has been published, the last one first. -/
  published : List Publication
  /-- How many two-sided quotes have been consumed. -/
  consumed : ℕ
  /-- For each of them, the last one first: whether it was followed by `SET_QUOTES`, and not by a
  decision. -/
  requoted : List Bool

namespace Quoting

/-- The terms of the quotes under way. -/
def terms (h : Quoting) : Terms where
  bid := h.eaten.reading.bid
  ask := h.eaten.reading.ask
  position := h.eaten.position
  skew := h.skew
  half := h.half

/-- What an access of the program says. `SET_QUOTES` ends with the store to `QUOTE_ASK`, and a
decision begins with the load of `CFG_ENABLE`. -/
def observe (h : Quoting) (i : Addr) (x : Access Addr Word) (m : Addr → Word) : Quoting :=
  let h := { h with
    eaten := h.eaten.observe .marketMaker i x m
    consumed :=
      if x = .load tickSeq ∧ i = Strategy.marketMaker.secondRead ∧ m tickSeq = h.eaten.reading.seq ∧
        h.eaten.reading.bid ≠ 0 ∧ h.eaten.reading.ask ≠ 0 then h.consumed + 1 else h.consumed }
  match x with
  | .load a =>
    if a = cfgPosition then { h with resting := ⟨0, 0⟩ }
    else if a = cfgSkew then { h with skew := m a }
    else if a = cfgHalfSpread then { h with half := m a }
    else if a = cfgEnable then { h with requoted := false :: h.requoted }
    else h
  | .store _ v =>
    if i = Strategy.marketMaker.pcOf .quoteBid then { h with quoteBid := v }
    else if i = Strategy.marketMaker.pcOf .quoteAsk then
      { h with
        resting := ⟨h.terms.bid2, h.terms.ask2⟩
        published := ⟨h.terms, h.quoteBid, v⟩ :: h.published
        requoted := true :: h.requoted }
    else h

/-- The host stores what it likes, outside the program area. -/
def Act (h : Quoting) (_ : Addr → Word) (x : Option (Access Addr Word)) (h' : Quoting) : Prop :=
  h' = h ∧ ∀ a v, x = some (.store a v) → inputBase ≤ a

/-- The CPU is in `INIT`, and the record of quotes is empty, whatever the RAM holds. -/
structure Starts (_ : Addr → Word) (h : Quoting) : Prop where
  published : h.published = []
  consumed : h.consumed = 0
  requoted : h.requoted = []

/-- The market is inside the quotes: its bid is below our ask, and its ask above our bid. Without
quotes there is nothing to be inside of. -/
def Inside (p : Pair) (bid ask : Word) : Prop :=
  p.bid2 = 0 ∨ (bid + bid).toInt < p.ask2.toInt ∧ p.bid2.toInt < (ask + ask).toInt

instance (p : Pair) (bid ask : Word) : Decidable (Inside p bid ask) := instDecidableOr

/-- **The condition on a run**: a two-sided quote that is consumed after one that traded finds the
market back inside the quotes. -/
def Returns (h : Quoting) (i : Addr) (x : Access Addr Word) (m : Addr → Word) : Prop :=
  x = .load tickSeq → i = Strategy.marketMaker.secondRead → m tickSeq = h.eaten.reading.seq →
    h.eaten.reading.bid ≠ 0 → h.eaten.reading.ask ≠ 0 → h.requoted.head? = some false →
      Inside h.resting h.eaten.reading.bid h.eaten.reading.ask

end Quoting

/-- Any host beside `market_maker.asm`. -/
def market : Host Quoting where
  act := Quoting.Act
  observe h i x m := h.observe i x m

/-- The same, in runs that meet the condition. -/
def returningMarket : Host Quoting := market.restrict Quoting.Returns fun _ _ _ => True

namespace Quoting

/-! ### The invariant -/

/-- The registers hold the resting quotes. -/
def Rests (h : Quoting) (r : Regs) : Prop := r.anchor = h.resting.bid2 ∧ r.ask2 = h.resting.ask2

/-- The registers hold the market that has been consumed. -/
def Reads (h : Quoting) (r : Regs) : Prop :=
  h.eaten.reading.bid = r.bid ∧ h.eaten.reading.ask = r.ask

/-- **The program's invariant**, point by point. -/
def Body (t : Thread) (h : Quoting) : Prop :=
  match t.point with
  | .initPosition => t.regs.anchor = 0 ∧ t.regs.ask2 = 0
  | .commit _ => h.Rests t.regs ∧ h.Reads t.regs
  | .thresh _ => False
  | .skew => h.Reads t.regs ∧ t.regs.anchor = t.regs.bid + t.regs.ask ∧
      t.regs.ask2 = t.regs.bid + t.regs.ask
  | .halfSpread skew2 => h.Reads t.regs ∧ t.regs.anchor = t.regs.bid + t.regs.ask ∧
      t.regs.ask2 = t.regs.bid + t.regs.ask ∧ skew2 = h.terms.skew2
  | .quoteBid => t.regs.anchor = h.terms.bid2 ∧ t.regs.ask2 = h.terms.ask2
  | .quoteAsk => t.regs.anchor = h.terms.bid2 ∧ t.regs.ask2 = h.terms.ask2 ∧
      h.quoteBid = h.terms.bid2 >>> 1
  | _ => h.Rests t.regs

/-- A publication is what the formulas give, halved with a shift. -/
def Halved (q : Publication) : Prop :=
  q.quoteBid = q.terms.bid2 >>> 1 ∧ q.quoteAsk = q.terms.ask2 >>> 1

/-- A two-sided quote has been consumed, and neither a decision nor the end of `SET_QUOTES` has
followed yet. -/
def UnderWay (t : Thread) : Prop :=
  match t.point with
  | .commit _ => t.regs.bid ≠ 0 ∧ t.regs.ask ≠ 0
  | .skew | .halfSpread _ | .quoteBid | .quoteAsk | .enable _ => True
  | _ => False

/-- Every two-sided quote has its entry, but for the one under way. -/
structure Counted (t : Thread) (h : Quoting) : Prop where
  done : ¬UnderWay t → h.consumed = h.requoted.length
  underWay : UnderWay t → h.consumed = h.requoted.length + 1

/-- The record has what the program has. -/
structure Sound (t : Thread) (h : Quoting) : Prop where
  eaten : h.eaten.Body .marketMaker t
  body : h.Body t

/-- The invariant of the board. -/
structure Inv (t : Thread) (h : Quoting) : Prop extends Sound t h where
  counted : h.Counted t
  halved : ∀ q ∈ h.published, Halved q

variable {t : Thread} {m : Addr → Word} {h h' : Quoting} {r : Regs}

/-- `INIT` begins with zeros in the registers. -/
theorem sound_initial : h.Sound (Thread.initial .marketMaker r) := ⟨⟨rfl, rfl, rfl⟩, ⟨rfl, rfl⟩⟩

/-- `INIT` begins with the invariant. -/
theorem Starts.inv (hs : h.Starts m) : Inv (Thread.initial .marketMaker r) h := by
  refine ⟨sound_initial, ⟨fun _ => ?_, fun hu => hu.elim⟩, ?_⟩
  · rw [hs.consumed, hs.requoted]
    rfl
  · rw [hs.published]
    exact fun q hq => absurd hq List.not_mem_nil

/-- A tick is considered: the market is compared with the quotes, or becomes their middle. -/
theorem Body.consider {seq : Word} (hb : h.Body ⟨.commit seq, r⟩) :
    h.Body (Strategy.marketMaker.consider { r with tick := seq }) := by
  obtain ⟨hrests, hreads⟩ := hb
  simp only [Strategy.consider, Strategy.setQuotes]
  split_ifs
  all_goals first
    | exact hrests
    | exact ⟨hreads, rfl, rfl⟩

/-- A tick is considered: with a two-sided quote something follows. -/
theorem Counted.consider {seq : Word} (hc : h.Counted ⟨.commit seq, r⟩) :
    h.Counted (Strategy.marketMaker.consider { r with tick := seq }) := by
  obtain ⟨hdone, hunder⟩ := hc
  simp only [Strategy.consider, Strategy.setQuotes]
  split_ifs with hbid hask
  · exact ⟨fun _ => hdone fun hu => hu.1 hbid, fun hu => hu.elim⟩
  · exact ⟨fun _ => hdone fun hu => hu.2 hask, fun hu => hu.elim⟩
  all_goals exact ⟨fun hu => absurd trivial hu, fun _ => hunder ⟨hbid, hask⟩⟩

/-- The steps without an access. -/
theorem Sound.internal (hs : h.Sound t) (hnone : t.access .marketMaker = none) :
    h.Sound (t.step .marketMaker m) := by
  refine ⟨hs.eaten.internal hnone, ?_⟩
  have hbody := hs.body
  rw [Thread.step_none hnone]
  obtain ⟨point, r⟩ := t
  cases point with
  | loop => exact hbody
  | addFill b q => exact hbody
  | commit seq => exact hbody.consider
  | _ => cases hnone

theorem Counted.internal (hc : h.Counted t) (hnone : t.access .marketMaker = none) :
    h.Counted (t.step .marketMaker m) := by
  rw [Thread.step_none hnone]
  obtain ⟨point, r⟩ := t
  cases point with
  | loop => exact ⟨fun _ => hc.done id, fun hu => hu.elim⟩
  | addFill b q => exact ⟨fun _ => hc.done id, fun hu => hu.elim⟩
  | commit seq => exact hc.consider
  | _ => cases hnone

theorem Inv.internal (hI : Inv t h) (hnone : t.access .marketMaker = none) :
    Inv (t.step .marketMaker m) h :=
  ⟨hI.toSound.internal hnone, hI.counted.internal hnone, hI.halved⟩

section Steps

variable {y : Access Addr Word}

/-- What `INIT` writes is no publication. -/
theorem observe_clear (i : Fin 7) (v : Word) :
    h.observe (Strategy.marketMaker.pcOf (.clear i))
      (.store (Strategy.marketMaker.clearOrder i) v) m = h := by
  fin_cases i <;> rfl

/-- The accesses of the program keep its quotes. -/
theorem Body.access (hs : h.Sound t) (hy : t.access .marketMaker = some y) :
    (h.observe (Strategy.marketMaker.pcOf t.point) y m).Body (t.step .marketMaker m) := by
  have hbody := hs.body
  have heaten := hs.eaten
  obtain ⟨point, r⟩ := t
  cases point with
  | clear i =>
    cases hy
    rw [observe_clear]
    by_cases hlt : i.val < 6
    · have hstep : Thread.step .marketMaker ⟨.clear i, r⟩ m = ⟨.clear ⟨i + 1, by omega⟩, r⟩ :=
        dif_pos hlt
      rw [hstep]
      exact hbody
    · have hstep : Thread.step .marketMaker ⟨.clear i, r⟩ m = ⟨.setStatus, r⟩ := dif_neg hlt
      rw [hstep]
      exact hbody
  | restart =>
    cases hy
    rw [Thread.step_load rfl]
    simp only [Thread.resume]
    split_ifs <;> exact hbody
  | clearRestart =>
    cases hy
    exact ⟨rfl, rfl⟩
  | fillSeq =>
    cases hy
    rw [Thread.step_load rfl]
    simp only [Thread.resume]
    split_ifs <;> exact hbody
  | tickSeq =>
    cases hy
    rw [Thread.step_load rfl]
    simp only [Thread.resume]
    split_ifs <;> exact hbody
  | tickSeq2 seq =>
    cases hy
    obtain ⟨hreads, hbid, hask⟩ := heaten
    rw [Thread.step_load rfl]
    simp only [Thread.resume]
    split_ifs with hseq
    -- the quote is consumed as it was read
    · refine ⟨hbody, ?_⟩
      have hobs : h.eaten.observe .marketMaker Strategy.marketMaker.secondRead
          (.load Fmma.tickSeq) m = h.eaten.consume :=
        if_pos ⟨rfl, hseq.trans hreads.counter.symm⟩
      change (h.eaten.observe .marketMaker Strategy.marketMaker.secondRead
          (.load Fmma.tickSeq) m).reading.bid = _ ∧
        (h.eaten.observe .marketMaker Strategy.marketMaker.secondRead
          (.load Fmma.tickSeq) m).reading.ask = _
      rw [hobs]
      exact ⟨hbid, hask⟩
    · exact hbody
  | enable side =>
    cases hy
    rw [Thread.step_load rfl]
    simp only [Thread.resume]
    split_ifs <;> exact hbody
  | maxPos side =>
    cases hy
    rw [Thread.step_load rfl]
    simp only [Thread.resume]
    split_ifs <;> exact hbody
  | thresh sum => exact hbody.elim
  | skew =>
    cases hy
    obtain ⟨-, hsame⟩ := heaten
    obtain ⟨hreads, hanchor, hask2⟩ := hbody
    refine ⟨hreads, hanchor, hask2, ?_⟩
    change m cfgSkew * r.position + m cfgSkew * r.position =
      m cfgSkew * h.eaten.position + m cfgSkew * h.eaten.position
    rw [← hsame.position]
  | halfSpread v =>
    cases hy
    obtain ⟨⟨hbid, hask⟩, hanchor, hask2, hskew⟩ := hbody
    change r.anchor = r.bid + r.ask at hanchor
    change r.ask2 = r.bid + r.ask at hask2
    change r.anchor - (m cfgHalfSpread + m cfgHalfSpread) - v =
        h.eaten.reading.bid + h.eaten.reading.ask - (m cfgHalfSpread + m cfgHalfSpread) -
          h.terms.skew2 ∧
      r.ask2 + (m cfgHalfSpread + m cfgHalfSpread) - v =
        h.eaten.reading.bid + h.eaten.reading.ask + (m cfgHalfSpread + m cfgHalfSpread) -
          h.terms.skew2
    rw [hbid, hask, hanchor, hask2, hskew]
    exact ⟨rfl, rfl⟩
  | quoteBid =>
    cases hy
    obtain ⟨hanchor, hask2⟩ := hbody
    refine ⟨hanchor, hask2, ?_⟩
    change r.anchor >>> 1 = _
    rw [show r.anchor = h.terms.bid2 from hanchor]
    rfl
  | quoteAsk =>
    cases hy
    exact ⟨hbody.1, hbody.2.1⟩
  | _ => first
    | (cases hy; done)
    | (cases hy; exact hbody)

theorem Sound.access (hs : h.Sound t) (hy : t.access .marketMaker = some y) :
    (h.observe (Strategy.marketMaker.pcOf t.point) y m).Sound (t.step .marketMaker m) := by
  refine ⟨?_, .access hs hy⟩
  have heaten := hs.eaten.access (m := m) hy
  cases y with
  | load a =>
    simp only [observe]
    split_ifs <;> exact heaten
  | store a v =>
    simp only [observe]
    split_ifs <;> exact heaten

/-- Every quote that is consumed gets its entry. -/
theorem Counted.access (hI : Inv t h) (hy : t.access .marketMaker = some y) :
    (h.observe (Strategy.marketMaker.pcOf t.point) y m).Counted (t.step .marketMaker m) := by
  have hcounted := hI.counted
  have heaten := hI.eaten
  obtain ⟨point, r⟩ := t
  cases point with
  | clear i =>
    cases hy
    rw [observe_clear, Thread.step_store rfl]
    simp only [Thread.resume]
    split_ifs <;> exact ⟨fun _ => hcounted.done id, fun hu => hu.elim⟩
  | restart =>
    cases hy
    rw [Thread.step_load rfl]
    simp only [Thread.resume]
    split_ifs <;> exact ⟨fun _ => hcounted.done id, fun hu => hu.elim⟩
  | fillSeq =>
    cases hy
    rw [Thread.step_load rfl]
    simp only [Thread.resume]
    split_ifs <;> exact ⟨fun _ => hcounted.done id, fun hu => hu.elim⟩
  | tickSeq =>
    cases hy
    rw [Thread.step_load rfl]
    simp only [Thread.resume]
    split_ifs <;> exact ⟨fun _ => hcounted.done id, fun hu => hu.elim⟩
  | tickSeq2 seq =>
    cases hy
    obtain ⟨hreads, hbid, hask⟩ := heaten
    have hdone := hcounted.done id
    have hconsumed : (h.observe Strategy.marketMaker.secondRead (.load Fmma.tickSeq) m).consumed =
        if m Fmma.tickSeq = seq ∧ r.bid ≠ 0 ∧ r.ask ≠ 0 then h.consumed + 1 else h.consumed := by
      rw [← hreads.counter, ← hbid, ← hask]
      exact if_congr ⟨fun hc => hc.2.2, fun hc => ⟨rfl, rfl, hc⟩⟩ rfl rfl
    rw [Thread.step_load rfl]
    simp only [Thread.resume]
    split_ifs with hseq
    · refine ⟨fun hu => ?_, fun hu => ?_⟩
      · exact (hconsumed.trans (if_neg fun hc => hu hc.2)).trans hdone
      · exact (hconsumed.trans (if_pos ⟨hseq, hu⟩)).trans (congrArg (· + 1) hdone)
    · exact ⟨fun _ => (hconsumed.trans (if_neg fun hc => hseq hc.1)).trans hdone, fun hu => hu.elim⟩
  | skew =>
    cases hy
    exact ⟨fun hu => absurd trivial hu, fun _ => hcounted.underWay trivial⟩
  | halfSpread v =>
    cases hy
    exact ⟨fun hu => absurd trivial hu, fun _ => hcounted.underWay trivial⟩
  | quoteBid =>
    cases hy
    exact ⟨fun hu => absurd trivial hu, fun _ => hcounted.underWay trivial⟩
  | quoteAsk =>
    cases hy
    exact ⟨fun _ => hcounted.underWay trivial, fun hu => hu.elim⟩
  | enable side =>
    cases hy
    rw [Thread.step_load rfl]
    simp only [Thread.resume]
    split_ifs <;> exact ⟨fun _ => hcounted.underWay trivial, fun hu => hu.elim⟩
  | maxPos side =>
    cases hy
    rw [Thread.step_load rfl]
    simp only [Thread.resume]
    split_ifs <;> exact ⟨fun _ => hcounted.done id, fun hu => hu.elim⟩
  | thresh sum => exact hI.body.elim
  | _ => first
    | (cases hy; done)
    | (cases hy; exact ⟨fun _ => hcounted.done id, fun hu => hu.elim⟩)

/-- What is published comes from `SET_QUOTES`. -/
theorem Inv.published_access (hI : Inv t h) (hy : t.access .marketMaker = some y) :
    ∀ q ∈ (h.observe (Strategy.marketMaker.pcOf t.point) y m).published, Halved q := by
  have hbody := hI.body
  have hhalved := hI.halved
  obtain ⟨point, r⟩ := t
  cases point with
  | quoteAsk =>
    cases hy
    obtain ⟨-, hask2, hbid⟩ := hbody
    have hpublished : (h.observe (Strategy.marketMaker.pcOf .quoteAsk)
        (.store Fmma.quoteAsk (r.ask2 >>> 1)) m).published =
          ⟨h.terms, h.quoteBid, r.ask2 >>> 1⟩ :: h.published := rfl
    rw [hpublished, List.forall_mem_cons]
    refine ⟨⟨hbid, ?_⟩, hhalved⟩
    change r.ask2 >>> 1 = _
    rw [show r.ask2 = h.terms.ask2 from hask2]
  | clear i =>
    cases hy
    rw [observe_clear]
    exact hhalved
  | _ => first
    | (cases hy; done)
    | (cases hy; exact hhalved)

/-- The accesses of the program keep the invariant. -/
theorem Inv.access (hI : Inv t h) (hy : t.access .marketMaker = some y) :
    Inv (t.step .marketMaker m) (h.observe (Strategy.marketMaker.pcOf t.point) y m) :=
  ⟨hI.toSound.access hy, .access hI hy, hI.published_access hy⟩

end Steps

end Quoting

theorem market_onlyShared : market.OnlyShared := fun _ _ _ _ hx => hx.2

/-- In every run the program keeps its invariant. -/
theorem market_invariant {c : Cpu} {h : Quoting}
    (hr : cpuMachine.Reachable market (boot .marketMaker Quoting.Starts) (c, h)) :
    ∃ t, Strategy.marketMaker.Sim t c.toCore ∧ Quoting.Inv t h := by
  obtain ⟨t, hsim, -, hI⟩ := board_invariant .marketMaker market_onlyShared
    (I := fun t _ h => Quoting.Inv t h) (fun r m h hs => hs.inv)
    (fun t m h hI hnone => hI.internal hnone) (fun t m h x hI hx _ => hI.access hx)
    (fun t m h x h' hI hx => hx.1 ▸ hI) (fun t m h h' r _ hreset => hreset.elim) hr
  exact ⟨t, hsim, hI⟩

/-! ### Concrete runs -/

/-- Scripts for the host: one store each. -/
def marketDirector : Director .marketMaker market (Addr × Word) where
  perform k h _ := if inputBase ≤ k.1 then some (some (.store k.1 k.2), h) else none
  ok _ := true
  perform_act {k h m x h'} hk := by
    split_ifs at hk with hin
    cases hk
    refine ⟨rfl, ?_⟩
    rintro a v ⟨⟩
    exact hin
  ok_permitted _ _ _ := trivial

/-- An empty record. -/
def Quoting.cold : Quoting := ⟨⟨⟨0, 0, 0⟩, 0, 0, 0, 0, 0⟩, 0, 0, ⟨0, 0⟩, 0, [], 0, []⟩

/-- A RAM with a quote in it, and the width of ours. -/
def marketRam (bidPrice askPrice half : Word) (a : Addr) : Word :=
  if a = tickSeq then 2 else if a = bid then bidPrice else if a = ask then askPrice
  else if a = cfgHalfSpread then half else 0

end Fmma
