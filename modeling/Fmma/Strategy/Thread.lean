import Fmma.Program.Image
import Fmma.Sim

/-!
# The strategies at the shared memory

What a strategy program is for, stated without its instructions: a state machine that goes
from one access to the shared RAM to the next. A `Point` is where the program is, with the
values it holds in scratch registers there; `Regs` are the registers that live across points,
under the names of the programs' register maps. `Thread.access` is the access made at a point
and `Thread.resume` what the program does with the word it read.

Four points touch no memory. They are kept because properties of the programs are about them:
the head of the main loop, the addition or subtraction of a fill, and the commit of a tick.
-/

namespace Fmma

/-- The side of a decision. -/
inductive Side
  | buy
  | sell
  deriving DecidableEq, Repr

/-- The value of `SIGNAL` for a side. -/
@[simp]
def Side.signal : Side → Word
  | .buy => signalBuy
  | .sell => signalSell

/-- The registers that live across the points of a pass, by the names of the register maps.
`anchor` is R9 (the quoting strategy's doubled bid), `ask2` is R10 where it is live (the
quoting strategy's doubled ask). -/
@[ext]
structure Regs where
  bid : Word
  ask : Word
  anchor : Word
  ask2 : Word
  tick : Word
  beat : Word
  position : Word
  fill : Word

/-- Where the program is, with what it holds in scratch registers there. -/
inductive Point
  /-- `INIT`: adopt `CFG_POSITION`, then `FILL_SEQ`. -/
  | initPosition
  | initFill
  /-- `INIT`: the output words, in the program's order. -/
  | clear (i : Fin 7)
  | setStatus
  | setVersion
  /-- `LOOP`. -/
  | loop
  | beat
  | restart
  | clearRestart
  /-- The fill mailbox. -/
  | fillSeq
  | fillSide
  | fillQty (side : Word)
  | addFill (bought : Bool) (qty : Word)
  | storePosition
  /-- The seqlock read; `seq` is the first reading of `TICK_SEQ`. -/
  | tickSeq
  | bid (seq : Word)
  | ask (seq : Word)
  | tickSeq2 (seq : Word)
  | commit (seq : Word)
  /-- `trading.asm`: the band around the anchor. -/
  | thresh (sum : Word)
  /-- `market_maker.asm`: `SET_QUOTES`. -/
  | skew
  | halfSpread (skew2 : Word)
  | quoteBid
  | quoteAsk
  /-- `DO_BUY` / `DO_SELL`. -/
  | enable (side : Side)
  | maxPos (side : Side)
  /-- `EMIT`. -/
  | signal (side : Side)
  | signalTick
  | status
  | signalSeq
  | signalSeqStore (v : Word)
  /-- `COUNT_REJECT`. -/
  | rejectStatus (v : Word)
  | rejects
  | rejectsStore (v : Word)
  deriving DecidableEq

/-- The literals of the words `INIT` clears. -/
instance Point.neZero : NeZero 7 := ⟨Nat.succ_ne_zero 6⟩

/-- The state of a strategy between two accesses. -/
@[ext]
structure Thread where
  point : Point
  regs : Regs

namespace Strategy

/-- What is one thing in `trading.asm` and another in `market_maker.asm`. -/
def pick {α : Type*} (s : Strategy) (x y : α) : α :=
  match s with
  | trading => x
  | marketMaker => y

/-- The order in which `INIT` writes the output words. -/
def clearOrder (s : Strategy) (i : Fin 7) : Addr :=
  match i with
  | 0 => Fmma.signal
  | 1 => Fmma.signalTick
  | 2 => Fmma.signalSeq
  | 3 => s.pick position Fmma.rejects
  | 4 => s.pick Fmma.rejects Fmma.quoteBid
  | 5 => s.pick Fmma.quoteBid Fmma.quoteAsk
  | 6 => s.pick Fmma.quoteAsk position

/-- `R9 = 0` in `market_maker.asm` and the fall-through of its trade test: requote. -/
def setQuotes (r : Regs) : Thread :=
  ⟨.skew, { r with anchor := r.bid + r.ask, ask2 := r.bid + r.ask }⟩

/-- What a strategy does with a tick it has committed: nothing with a one-sided book, else
`trading.asm` compares the doubled mid with its anchor and `market_maker.asm` the market with
its own doubled quotes. -/
def consider (s : Strategy) (r : Regs) : Thread :=
  if r.bid = 0 then ⟨.loop, r⟩
  else if r.ask = 0 then ⟨.loop, r⟩
  else match s with
  | trading =>
    if r.anchor = 0 then ⟨.loop, { r with anchor := r.bid + r.ask }⟩
    else ⟨.thresh (r.bid + r.ask), r⟩
  | marketMaker =>
    if r.anchor = 0 then setQuotes r
    else if ¬(r.bid + r.bid).toInt < r.ask2.toInt then ⟨.enable .sell, r⟩
    else if ¬r.anchor.toInt < (r.ask + r.ask).toInt then ⟨.enable .buy, r⟩
    else setQuotes r

/-- The band test of `trading.asm`; the anchor moves to the new sum in every case. -/
def bandTest (r : Regs) (sum threshold : Word) : Thread :=
  if sum.toInt < (r.anchor - (threshold + threshold)).toInt then
    ⟨.enable .buy, { r with anchor := sum }⟩
  else if (r.anchor + (threshold + threshold)).toInt < sum.toInt then
    ⟨.enable .sell, { r with anchor := sum }⟩
  else ⟨.loop, { r with anchor := sum }⟩

/-- The position limit: a buy is allowed below `+CFG_MAX_POS`, a sell above `-CFG_MAX_POS`. -/
def allowed (side : Side) (r : Regs) (maxPos : Word) : Bool :=
  match side with
  | .buy => decide (r.position.toInt < maxPos.toInt)
  | .sell => decide ((0 - maxPos).toInt < r.position.toInt)

end Strategy

namespace Thread

open Strategy

/-- The access the strategy makes at its point. -/
def access (s : Strategy) (t : Thread) : Option (Access Addr Word) :=
  match t.point with
  | .initPosition => some (.load cfgPosition)
  | .initFill => some (.load fillSeq)
  | .clear i =>
    some (.store (s.clearOrder i) (if s.clearOrder i = position then t.regs.position else 0))
  | .setStatus => some (.store status statusRunning)
  | .setVersion => some (.store fwVersion protocolVersion)
  | .loop => none
  | .beat => some (.store heartbeat t.regs.beat)
  | .restart => some (.load cfgRestart)
  | .clearRestart => some (.store cfgRestart 0)
  | .fillSeq => some (.load fillSeq)
  | .fillSide => some (.load fillSide)
  | .fillQty _ => some (.load fillQty)
  | .addFill _ _ => none
  | .storePosition => some (.store position t.regs.position)
  | .tickSeq => some (.load tickSeq)
  | .bid _ => some (.load bid)
  | .ask _ => some (.load ask)
  | .tickSeq2 _ => some (.load tickSeq)
  | .commit _ => none
  | .thresh _ => some (.load cfgThresh)
  | .skew => some (.load cfgSkew)
  | .halfSpread _ => some (.load cfgHalfSpread)
  | .quoteBid => some (.store quoteBid (t.regs.anchor >>> 1))
  | .quoteAsk => some (.store quoteAsk (t.regs.ask2 >>> 1))
  | .enable _ => some (.load cfgEnable)
  | .maxPos _ => some (.load cfgMaxPos)
  | .signal side => some (.store signal side.signal)
  | .signalTick => some (.store signalTick t.regs.tick)
  | .status => some (.store status statusRunning)
  | .signalSeq => some (.load signalSeq)
  | .signalSeqStore v => some (.store signalSeq v)
  | .rejectStatus v => some (.store status v)
  | .rejects => some (.load rejects)
  | .rejectsStore v => some (.store rejects v)

/-- Entering `INIT` at `PROGRAM_BASE`: the anchor, the last tick and the heartbeat are zeroed,
the other registers are what they were. -/
def initial (s : Strategy) (r : Regs) : Thread where
  point := .initPosition
  regs := { r with
    anchor := 0
    ask2 := s.pick r.ask2 0
    tick := 0
    beat := 0 }

/-- What the strategy does from its point on, having read `v` there, up to the next point. -/
def resume (s : Strategy) (t : Thread) (v : Word) : Thread :=
  let r := t.regs
  match t.point with
  | .initPosition => ⟨.initFill, { r with position := v }⟩
  | .initFill => ⟨.clear 0, { r with fill := v }⟩
  | .clear i => if h : i.val < 6 then ⟨.clear ⟨i + 1, by omega⟩, r⟩ else ⟨.setStatus, r⟩
  | .setStatus => ⟨.setVersion, r⟩
  | .setVersion => ⟨.loop, r⟩
  | .loop => ⟨.beat, { r with beat := r.beat + 1 }⟩
  | .beat => ⟨.restart, r⟩
  | .restart => if v = 0 then ⟨.fillSeq, r⟩ else ⟨.clearRestart, r⟩
  | .clearRestart => initial s r
  | .fillSeq => if v = r.fill then ⟨.tickSeq, r⟩ else ⟨.fillSide, { r with fill := v }⟩
  | .fillSide => ⟨.fillQty v, r⟩
  | .fillQty side => ⟨.addFill (side == fillBought) v, r⟩
  | .addFill bought qty =>
    ⟨.storePosition, { r with
      position := if bought then r.position + qty else r.position - qty }⟩
  | .storePosition => ⟨.tickSeq, r⟩
  | .tickSeq =>
    if v = r.tick then ⟨.loop, r⟩
    else if v &&& 1 = 0 then ⟨.bid v, r⟩
    else ⟨.loop, r⟩
  | .bid seq => ⟨.ask seq, { r with bid := v }⟩
  | .ask seq => ⟨.tickSeq2 seq, { r with ask := v }⟩
  | .tickSeq2 seq => if v = seq then ⟨.commit seq, r⟩ else ⟨.loop, r⟩
  | .commit seq => consider s { r with tick := seq }
  | .thresh sum => bandTest r sum v
  | .skew => ⟨.halfSpread (v * r.position + v * r.position), r⟩
  | .halfSpread skew2 =>
    ⟨.quoteBid, { r with
      anchor := r.anchor - (v + v) - skew2
      ask2 := r.ask2 + (v + v) - skew2 }⟩
  | .quoteBid => ⟨.quoteAsk, r⟩
  | .quoteAsk => ⟨.loop, r⟩
  | .enable side =>
    if v = 0 then ⟨.rejectStatus (statusDisabled + statusRunning), r⟩ else ⟨.maxPos side, r⟩
  | .maxPos side =>
    if allowed side r v then ⟨.signal side, r⟩
    else ⟨.rejectStatus (statusRiskBlocked + statusRunning), r⟩
  | .signal _ => ⟨.signalTick, r⟩
  | .signalTick => ⟨.status, r⟩
  | .status => ⟨.signalSeq, r⟩
  | .signalSeq => ⟨.signalSeqStore (v + 1), r⟩
  | .signalSeqStore _ => ⟨.loop, r⟩
  | .rejectStatus _ => ⟨.rejects, r⟩
  | .rejects => ⟨.rejectsStore (v + 1), r⟩
  | .rejectsStore _ => ⟨.loop, r⟩

/-- The word the strategy reads at its point; a point without a load reads nothing. -/
def reads (s : Strategy) (t : Thread) (mem : Addr → Word) : Word :=
  match t.access s with
  | some x => x.reads mem
  | none => 0

/-- One step of the strategy: the access and what follows it. -/
def step (s : Strategy) (t : Thread) (mem : Addr → Word) : Thread :=
  t.resume s (t.reads s mem)

variable {s : Strategy} {t : Thread} {mem : Addr → Word} {a : Addr} {v : Word}

/-- A load goes on with the word it read. -/
theorem step_load (h : t.access s = some (.load a)) : t.step s mem = t.resume s (mem a) := by
  simp only [step, reads, h, Access.reads_load]

/-- A store goes on with the old word, which no strategy looks at. -/
theorem step_store (h : t.access s = some (.store a v)) : t.step s mem = t.resume s (mem a) := by
  simp only [step, reads, h, Access.reads_store]

/-- A point without an access. -/
theorem step_none (h : t.access s = none) : t.step s mem = t.resume s 0 := by
  simp only [step, reads, h]

/-! ### The tail of a pass -/

end Thread

/-- The points of `INIT`. -/
def Point.booting : Point → Bool
  | .initPosition => true
  | .initFill => true
  | .clear _ => true
  | .setStatus => true
  | .setVersion => true
  | _ => false

/-- The points of a pass after the mailbox, which leave the inventory alone. -/
def Point.tail : Point → Bool
  | .tickSeq | .bid _ | .ask _ | .tickSeq2 _ | .commit _ | .thresh _ | .skew | .halfSpread _
  | .quoteBid | .quoteAsk | .enable _ | .maxPos _ | .signal _ | .signalTick | .status | .signalSeq
  | .signalSeqStore _ | .rejectStatus _ | .rejects | .rejectsStore _ => true
  | _ => false

/-- Still in the tail of the pass, or at the head of the next one. -/
def Point.tailOrLoop (p : Point) : Prop := p.tail = true ∨ p = .loop

/-- What a step in the tail of a pass leaves alone. -/
structure Thread.SameInventory (t t' : Thread) : Prop where
  point : t'.point.tailOrLoop
  position : t'.regs.position = t.regs.position
  fill : t'.regs.fill = t.regs.fill
  beat : t'.regs.beat = t.regs.beat

namespace Strategy

/-- Considering a tick leaves the inventory alone. -/
theorem consider_sameInventory (s : Strategy) (t : Thread) (v : Word) :
    t.SameInventory (s.consider { t.regs with tick := v }) := by
  cases s with
  | trading =>
    simp only [consider]
    split_ifs
    all_goals first
      | exact ⟨.inl rfl, rfl, rfl, rfl⟩
      | exact ⟨.inr rfl, rfl, rfl, rfl⟩
  | marketMaker =>
    simp only [consider, setQuotes]
    split_ifs
    all_goals first
      | exact ⟨.inl rfl, rfl, rfl, rfl⟩
      | exact ⟨.inr rfl, rfl, rfl, rfl⟩

/-- So does the band test. -/
theorem bandTest_sameInventory (t : Thread) (sum v : Word) :
    t.SameInventory (bandTest t.regs sum v) := by
  simp only [bandTest]
  split_ifs
  all_goals first
    | exact ⟨.inl rfl, rfl, rfl, rfl⟩
    | exact ⟨.inr rfl, rfl, rfl, rfl⟩

end Strategy

namespace Thread

variable {s : Strategy} {t : Thread} {mem : Addr → Word} {a : Addr} {v : Word}

/-- **The tail of a pass** runs to the next `LOOP` and leaves the inventory alone. -/
theorem resume_tail (h : t.point.tail = true) (v : Word) : t.SameInventory (t.resume s v) := by
  obtain ⟨point, r⟩ := t
  cases point with
  | commit seq => exact Strategy.consider_sameInventory s _ seq
  | thresh sum => exact Strategy.bandTest_sameInventory _ sum v
  | tickSeq =>
    simp only [resume]
    split_ifs
    all_goals first
      | exact ⟨.inl rfl, rfl, rfl, rfl⟩
      | exact ⟨.inr rfl, rfl, rfl, rfl⟩
  | tickSeq2 seq =>
    simp only [resume]
    split_ifs
    all_goals first
      | exact ⟨.inl rfl, rfl, rfl, rfl⟩
      | exact ⟨.inr rfl, rfl, rfl, rfl⟩
  | enable side =>
    simp only [resume]
    split_ifs <;> exact ⟨.inl rfl, rfl, rfl, rfl⟩
  | maxPos side =>
    simp only [resume]
    split_ifs <;> exact ⟨.inl rfl, rfl, rfl, rfl⟩
  | _ => first
    | exact ⟨.inl rfl, rfl, rfl, rfl⟩
    | exact ⟨.inr rfl, rfl, rfl, rfl⟩
    | cases h

/-- `INIT` begins with a restart only. -/
theorem resume_ne_initPosition (h : t.point ≠ .clearRestart) (v : Word) :
    (t.resume s v).point ≠ .initPosition := by
  by_cases htail : t.point.tail = true
  · intro heq
    have hnext := (resume_tail (s := s) htail v).point
    rw [heq] at hnext
    rcases hnext with hnext | hnext <;> cases hnext
  obtain ⟨point, r⟩ := t
  cases point with
  | clearRestart => exact absurd rfl h
  | clear i =>
    simp only [resume]
    split_ifs <;> exact Point.noConfusion
  | restart =>
    simp only [resume]
    split_ifs <;> exact Point.noConfusion
  | fillSeq =>
    simp only [resume]
    split_ifs <;> exact Point.noConfusion
  | _ => first
    | exact absurd rfl htail
    | exact Point.noConfusion

/-- Without a restart, `INIT` is over for good. -/
theorem resume_booting (hb : t.point.booting = false) (hr : t.point ≠ .clearRestart) (v : Word) :
    (t.resume s v).point.booting = false := by
  by_cases htail : t.point.tail = true
  · have hnext := (resume_tail (s := s) htail v).point
    cases hp : (t.resume s v).point
    all_goals first
      | rfl
      | (rw [hp] at hnext; rcases hnext with hnext | hnext <;> cases hnext)
  obtain ⟨point, r⟩ := t
  cases point with
  | clearRestart => exact absurd rfl hr
  | restart =>
    simp only [resume]
    split_ifs <;> rfl
  | fillSeq =>
    simp only [resume]
    split_ifs <;> rfl
  | _ => first
    | exact absurd rfl htail
    | rfl
    | cases hb

/-- The restart path is taken on a restart request only. -/
theorem resume_ne_clearRestart {v : Word} (h : t.point = .restart → v = 0) :
    (t.resume s v).point ≠ .clearRestart := by
  by_cases htail : t.point.tail = true
  · intro heq
    have hnext := (resume_tail (s := s) htail v).point
    rw [heq] at hnext
    rcases hnext with hnext | hnext <;> cases hnext
  obtain ⟨point, r⟩ := t
  cases point with
  | clear i =>
    simp only [resume]
    split_ifs <;> exact Point.noConfusion
  | restart =>
    simp only [resume, h rfl, if_true]
    exact Point.noConfusion
  | fillSeq =>
    simp only [resume]
    split_ifs <;> exact Point.noConfusion
  | _ => first
    | exact absurd rfl htail
    | exact Point.noConfusion

/-- The loads and stores of the tail of a pass concern neither the mailbox nor the inventory. -/
theorem access_tail (h : t.point.tail = true) {x : Access Addr Word} (hx : t.access s = some x) :
    x.addr ∉ [cfgPosition, cfgRestart, fillSeq, fillSide, fillQty, position, heartbeat,
      fwVersion] := by
  obtain ⟨point, r⟩ := t
  cases point with
  | commit seq => cases hx
  | _ => first
    | (cases h; done)
    | (cases hx; simp only [Access.addr_load, Access.addr_store]; decide)

end Thread

end Fmma
