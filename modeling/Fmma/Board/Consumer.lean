import Fmma.Board.Seqlock

/-!
# What the programs consume

The `Consumer` does what the programs are to do with quotes and fills, computed from what they load.
It is a part of the records in which a property of the programs depends on that.
-/

namespace Fmma

/-- What has been consumed: the tick being read, the side of the fill being read, and the last
tick, the anchor of `trading.asm`, the inventory and the passes since `INIT`. -/
structure Consumer where
  reading : Tick
  side : Word
  tick : Word
  anchor : Word
  position : Word
  beat : Word

namespace Consumer

/-- A tick is consumed: it becomes the last one, and a two-sided one moves the anchor. -/
def consume (k : Consumer) : Consumer :=
  { k with
    tick := k.reading.seq
    anchor := if k.reading.bid = 0 ∨ k.reading.ask = 0 then k.anchor
      else k.reading.bid + k.reading.ask }

/-- A fill is applied. -/
def apply (k : Consumer) (qty : Word) : Consumer :=
  { k with position := if k.side = fillBought then k.position + qty else k.position - qty }

/-- `INIT` forgets all but the configured position. -/
def init (k : Consumer) (start : Word) : Consumer :=
  { k with
    tick := 0
    anchor := 0
    position := start
    beat := 0 }

/-- What an access of the program says. -/
def observe (s : Strategy) (k : Consumer) (i : Addr) (x : Access Addr Word) (m : Addr → Word) :
    Consumer :=
  match x with
  | .load a =>
    if a = cfgPosition then k.init (m a)
    else if a = fillSide then { k with side := m a }
    else if a = fillQty then k.apply (m a)
    else if a = bid then { k with reading := { k.reading with bid := m a } }
    else if a = ask then { k with reading := { k.reading with ask := m a } }
    else if a = tickSeq ∧ i = s.firstRead then
      { k with reading := { k.reading with seq := m a } }
    else if a = tickSeq ∧ m a = k.reading.seq then k.consume
    else k
  | .store a _ => if a = heartbeat then { k with beat := k.beat + 1 } else k

/-- The registers are as the consumer has them. -/
structure Same (s : Strategy) (r : Regs) (k : Consumer) : Prop where
  tick : r.tick = k.tick
  anchor : s = .trading → r.anchor = k.anchor
  position : r.position = k.position
  beat : r.beat = k.beat

/-- An even counter has been read for the first time. -/
structure Reads (s : Strategy) (r : Regs) (k : Consumer) (seq : Word) : Prop extends
    Same s r k where
  counter : k.reading.seq = seq
  even : seq &&& 1 = 0

/-- **The consumer's invariant**, point by point. -/
def Body (s : Strategy) (t : Thread) (k : Consumer) : Prop :=
  match t.point with
  | .initPosition => t.regs.tick = 0 ∧ t.regs.anchor = 0 ∧ t.regs.beat = 0
  | .beat => k.Same s { t.regs with beat := t.regs.beat - 1 }
  | .fillQty side => k.Same s t.regs ∧ k.side = side
  | .addFill bought qty => k.Same s { t.regs with
      position := if bought then t.regs.position + qty else t.regs.position - qty }
  | .bid seq => k.Reads s t.regs seq
  | .ask seq => k.Reads s t.regs seq ∧ k.reading.bid = t.regs.bid
  | .tickSeq2 seq => k.Reads s t.regs seq ∧ k.reading.bid = t.regs.bid ∧
      k.reading.ask = t.regs.ask
  | .commit seq => k.Same s { t.regs with
      tick := seq
      anchor := if t.regs.bid = 0 ∨ t.regs.ask = 0 then t.regs.anchor
        else t.regs.bid + t.regs.ask }
  | .thresh sum => k.Same s { t.regs with anchor := sum }
  | .skew => s = .marketMaker ∧ k.Same s t.regs
  | .halfSpread _ => s = .marketMaker ∧ k.Same s t.regs
  | _ => k.Same s t.regs

variable {s : Strategy} {t : Thread} {k : Consumer} {m : Addr → Word} {r : Regs}

/-- Considering a tick moves the anchor as the consumer does. -/
theorem Body.consider {seq : Word} (hb : k.Body s ⟨.commit seq, r⟩) :
    k.Body s (s.consider { r with tick := seq }) := by
  obtain ⟨htick, hanchor, hposition, hbeat⟩ := hb
  cases s with
  | trading =>
    have hanchor := hanchor rfl
    simp only [Strategy.consider]
    split_ifs at hanchor ⊢ with h₁ h₂ h₃ h₄
    all_goals first
      | exact ⟨htick, fun _ => hanchor, hposition, hbeat⟩
      | simp_all
  | marketMaker =>
    have hsame : ∀ {r' : Regs}, r'.tick = seq → r'.position = r.position → r'.beat = r.beat →
        k.Same .marketMaker r' :=
      fun h₁ h₂ h₃ => ⟨h₁.trans htick, by rintro ⟨⟩, h₂.trans hposition, h₃.trans hbeat⟩
    simp only [Strategy.consider, Strategy.setQuotes]
    split_ifs
    all_goals first
      | exact hsame rfl rfl rfl
      | exact ⟨rfl, hsame rfl rfl rfl⟩

/-- The steps without an access. -/
theorem Body.internal (hb : k.Body s t) (hnone : t.access s = none) : k.Body s (t.step s m) := by
  rw [Thread.step_none hnone]
  obtain ⟨point, r⟩ := t
  cases point with
  | loop =>
    obtain ⟨htick, hanchor, hposition, hbeat⟩ := hb
    refine ⟨htick, hanchor, hposition, ?_⟩
    exact (BitVec.add_sub_cancel r.beat 1).trans hbeat
  | addFill b q => exact hb
  | commit seq => exact hb.consider
  | _ => cases hnone

/-- **The accesses of the program keep the consumer's invariant.** -/
theorem Body.access {y : Access Addr Word} (hb : k.Body s t) (hy : t.access s = some y) :
    (k.observe s (s.pcOf t.point) y m).Body s (t.step s m) := by
  obtain ⟨point, r⟩ := t
  cases point with
  | initPosition =>
    cases hy
    obtain ⟨htick, hanchor, hbeat⟩ := hb
    exact ⟨htick, fun _ => hanchor, rfl, hbeat⟩
  | initFill =>
    cases hy
    exact ⟨hb.tick, hb.anchor, hb.position, hb.beat⟩
  | clear i =>
    cases hy
    have hkeep : k.observe s (s.pcOf (.clear i)) (.store (s.clearOrder i)
        (if s.clearOrder i = Fmma.position then r.position else 0)) m = k := by
      fin_cases i <;> cases s <;> rfl
    rw [hkeep, Thread.step_store rfl]
    simp only [Thread.resume]
    split_ifs <;> exact hb
  | beat =>
    cases hy
    obtain ⟨htick, hanchor, hposition, hbeat⟩ := hb
    refine ⟨htick, hanchor, hposition, ?_⟩
    have hsub : r.beat - 1 = k.beat := hbeat
    change r.beat = k.beat + 1
    rw [← hsub, BitVec.sub_add_cancel]
  | restart =>
    cases hy
    rw [Thread.step_load rfl]
    simp only [Thread.resume]
    split_ifs <;> exact hb
  | clearRestart =>
    cases hy
    exact ⟨rfl, rfl, rfl⟩
  | fillSeq =>
    cases hy
    rw [Thread.step_load rfl]
    simp only [Thread.resume]
    split_ifs
    · exact hb
    · exact ⟨hb.tick, hb.anchor, hb.position, hb.beat⟩
  | fillSide =>
    cases hy
    exact ⟨⟨hb.tick, hb.anchor, hb.position, hb.beat⟩, rfl⟩
  | fillQty side =>
    cases hy
    obtain ⟨hsame, hside⟩ := hb
    refine ⟨hsame.tick, hsame.anchor, ?_, hsame.beat⟩
    have hposition : r.position = k.position := hsame.position
    change (if (side == fillBought) = true then r.position + m fillQty
      else r.position - m fillQty) =
        if k.side = fillBought then k.position + m fillQty else k.position - m fillQty
    simp only [hside, hposition, beq_iff_eq]
  | tickSeq =>
    cases hy
    have hobs : k.observe s s.firstRead (.load tickSeq) m =
        { k with reading := { k.reading with seq := m tickSeq } } := if_pos ⟨rfl, rfl⟩
    have hsame : Same s r (k.observe s s.firstRead (.load tickSeq) m) := by
      rw [hobs]
      exact ⟨hb.tick, hb.anchor, hb.position, hb.beat⟩
    rw [Thread.step_load rfl]
    simp only [Thread.resume]
    split_ifs with hold heven
    · exact hsame
    · refine ⟨hsame, ?_, heven⟩
      change (k.observe s s.firstRead (.load tickSeq) m).reading.seq = _
      rw [hobs]
    · exact hsame
  | bid seq =>
    cases hy
    exact ⟨⟨⟨hb.tick, hb.anchor, hb.position, hb.beat⟩, hb.counter, hb.even⟩, rfl⟩
  | ask seq =>
    cases hy
    obtain ⟨hreads, hbid⟩ := hb
    exact ⟨⟨⟨hreads.tick, hreads.anchor, hreads.position, hreads.beat⟩, hreads.counter,
      hreads.even⟩,
      hbid, rfl⟩
  | tickSeq2 seq =>
    cases hy
    obtain ⟨hreads, hbid, hask⟩ := hb
    have hne : s.secondRead ≠ s.firstRead := by cases s <;> decide
    rw [Thread.step_load rfl]
    simp only [Thread.resume]
    split_ifs with hseq
    -- the second reading is the first: the quote is consumed, on both sides or on none
    · have hobs : k.observe s s.secondRead (.load tickSeq) m = k.consume :=
        (if_neg fun h => hne h.2).trans (if_pos ⟨rfl, hseq.trans hreads.counter.symm⟩)
      change (k.observe s s.secondRead (.load tickSeq) m).Body s _
      rw [hobs]
      refine ⟨hreads.counter.symm, fun hs => ?_, hreads.position, hreads.beat⟩
      change (if r.bid = 0 ∨ r.ask = 0 then r.anchor else r.bid + r.ask) =
        if k.reading.bid = 0 ∨ k.reading.ask = 0 then k.anchor else k.reading.bid + k.reading.ask
      rw [hbid, hask, ← hreads.anchor hs]
    · have hobs : k.observe s s.secondRead (.load tickSeq) m = k :=
        (if_neg fun h => hne h.2).trans (if_neg fun h => hseq (h.2.trans hreads.counter))
      change (k.observe s s.secondRead (.load tickSeq) m).Body s _
      rw [hobs]
      exact hreads.toSame
  | thresh sum =>
    cases hy
    obtain ⟨htick, hanchor, hposition, hbeat⟩ := hb
    rw [Thread.step_load rfl]
    simp only [Thread.resume, Strategy.bandTest]
    split_ifs <;> exact ⟨htick, hanchor, hposition, hbeat⟩
  | enable side =>
    cases hy
    rw [Thread.step_load rfl]
    simp only [Thread.resume]
    split_ifs <;> exact hb
  | maxPos side =>
    cases hy
    rw [Thread.step_load rfl]
    simp only [Thread.resume]
    split_ifs <;> exact hb
  | skew =>
    cases hy
    exact ⟨hb.1, hb.2.tick, hb.2.anchor, hb.2.position, hb.2.beat⟩
  | halfSpread v =>
    cases hy
    obtain ⟨rfl, hsame⟩ := hb
    exact ⟨hsame.tick, by rintro ⟨⟩, hsame.position, hsame.beat⟩
  | _ => first
    | (cases hy; done)
    | (cases hy; exact hb)

end Consumer

end Fmma
