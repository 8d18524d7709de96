import Fmma.App.Band
import Fmma.Board.QuotePrices

/-!
# The strategy in software beside the fabric

`fmma_strategy.c` mirrors `trading.asm`. Both are given the same quotes and fills, one after the
other: the software by a call, the fabric through the shared RAM, in any interleaving of the
driver's stores with the instructions. The next one comes once the program has had a whole pass for
the last one. What the two make of it is the same as long as the band test is exact and no integer
of the software overflows (`MarketEvent.Faithful`).
-/

namespace Fmma

/-- What the strategies are told: a quote, or a fill of one lot. -/
inductive MarketEvent
  | quote (bid ask bidSize askSize : Word)
  | fill (bought : Bool)
  deriving DecidableEq

namespace MarketEvent

/-- The value of `FILL_SIDE`. -/
def side (bought : Bool) : Word := if bought then fillBought else fillSold

/-- The quotes `handle_ticker` admits, clamped to the range of prices. -/
def Admissible : MarketEvent → Prop
  | .quote bid ask _ _ => (1 ≤ bid.toNat ∧ bid.toNat ≤ priceMax) ∧ 1 ≤ ask.toNat ∧
      ask.toNat ≤ priceMax
  | .fill _ => True

/-- **The condition**: the band test is exact in 32 bits, the limit can be negated where it is, and
the position does not overflow. -/
def Faithful (σ : SoftStrategy) : MarketEvent → Prop
  | .quote bid ask _ _ => σ.anchor ≠ 0 →
      BandExact σ.anchor (bid.toNat + ask.toNat) σ.threshold.toNat ∧
      (σ.anchor + 2 * σ.threshold.toNat < bid.toNat + ask.toNat → σ.maxPosition.toInt ≠ -2 ^ 31)
  | .fill true => σ.position + 1 < 2 ^ 31
  | .fill false => -2 ^ 31 ≤ σ.position - 1

end MarketEvent

/-- The call of `fmma_strategy.c`. -/
def SoftStrategy.handle (σ : SoftStrategy) : MarketEvent → Word × SoftStrategy
  | .quote bid ask _ _ => σ.onQuote bid ask
  | .fill bought => (signalNone, σ.onFill (MarketEvent.side bought) 1)

/-- The call of the driver. -/
def Fpga.handle (f : Fpga) : MarketEvent → List (Addr × Word) × Fpga
  | .quote bid ask bidSize askSize => f.publishTick bid ask bidSize askSize
  | .fill bought => f.reportFill (MarketEvent.side bought) 1

/-- The host with a strategy of its own. -/
structure Mirror where
  fpga : Fpga
  /-- The stores of the driver's call under way. -/
  todo : List (Addr × Word)
  /-- The last event. -/
  event : Option MarketEvent
  /-- The software before the last event. -/
  prev : SoftStrategy
  /-- The driver's counters and two output words before the last event. -/
  oldTick : Word
  oldFill : Word
  oldSignals : Word
  oldRejects : Word
  /-- The heartbeats since the last store of the call. -/
  beats : ℕ

namespace Mirror

/-- The software after the last event. -/
def soft (h : Mirror) : SoftStrategy := h.event.elim h.prev fun e => (h.prev.handle e).2

/-- What the call has returned. -/
def returned (h : Mirror) : Word := h.event.elim signalNone fun e => (h.prev.handle e).1

/-- The next event. -/
def begin (h : Mirror) (e : MarketEvent) (m : Addr → Word) : Mirror where
  fpga := (h.fpga.handle e).2
  todo := (h.fpga.handle e).1
  event := some e
  prev := h.soft
  oldTick := h.fpga.tickSeq
  oldFill := h.fpga.fillSeq
  oldSignals := m signalSeq
  oldRejects := m rejects
  beats := 0

/-- What the host does. -/
inductive Act (ok : SoftStrategy → MarketEvent → Prop) (h : Mirror) (m : Addr → Word) :
    Option (Access Addr Word) → Mirror → Prop
  | event (e : MarketEvent) (htodo : h.todo = []) (hbeats : 2 ≤ h.beats) (he : e.Admissible)
    (hok : ok h.soft e) : Act ok h m none (h.begin e m)
  | store {a : Addr} {v : Word} {rest : List (Addr × Word)} (htodo : h.todo = (a, v) :: rest)
    (ha : inputBase ≤ a) : Act ok h m (some (.store a v)) { h with todo := rest }

/-- The host counts the heartbeats. -/
def observe (h : Mirror) : Access Addr Word → Mirror
  | .load _ => h
  | .store a _ => if a = heartbeat ∧ h.todo = [] then { h with beats := h.beats + 1 } else h

/-- `fmma_strategy_init` on the one side, and `INIT` on the other with the same configuration; no
quote is in the RAM. -/
structure Starts (m : Addr → Word) (h : Mirror) : Prop where
  prev : h.prev = .init (m cfgThresh) (m cfgMaxPos) (m cfgPosition).toInt
  enable : m cfgEnable = 1
  restart : m cfgRestart = 0
  tick : m tickSeq = 0 ∧ h.fpga.tickSeq = 0
  fill : h.fpga.fillSeq = m fillSeq
  event : h.event = none
  todo : h.todo = []
  beats : h.beats = 0

end Mirror

/-- The host with a strategy of its own, for the events that are `ok`. -/
def mirror (ok : SoftStrategy → MarketEvent → Prop) : Host Mirror where
  act := Mirror.Act ok
  observe h _ x _ := h.observe x

theorem mirror_onlyShared (ok : SoftStrategy → MarketEvent → Prop) : (mirror ok).OnlyShared := by
  rintro h m x h' hx a v rfl
  cases hx with
  | store htodo ha => exact ha

namespace SoftStrategy

/-! ### The software -/

variable {σ : SoftStrategy} {b a : Word}

/-- Inventory allows the decision. -/
def Room (σ : SoftStrategy) : Side → Prop
  | .buy => σ.position < σ.maxPosition.toInt
  | .sell => -σ.maxPosition.toInt < σ.position

/-- The limit stays, and so does what a quote does not change. -/
theorem handle_config (σ : SoftStrategy) (e : MarketEvent) :
    (σ.handle e).2.threshold = σ.threshold ∧ (σ.handle e).2.maxPosition = σ.maxPosition ∧
      (σ.handle e).2.enabled = σ.enabled := by
  cases e with
  | quote bid ask bidSize askSize =>
    simp only [handle, onQuote]
    split_ifs <;> exact ⟨rfl, rfl, rfl⟩
  | fill bought =>
    simp only [handle, onFill]
    split_ifs <;> exact ⟨rfl, rfl, rfl⟩

/-- A two-sided quote moves the anchor only. -/
theorem onQuote_moves (hb : b ≠ 0) (ha : a ≠ 0) :
    (σ.onQuote b a).2.anchor = b.toNat + a.toNat ∧ (σ.onQuote b a).2.position = σ.position := by
  simp only [onQuote, if_neg (not_or.mpr ⟨hb, ha⟩)]
  split_ifs <;> exact ⟨rfl, rfl⟩

/-- The first quote. -/
theorem onQuote_first (h : σ.anchor = 0) :
    (σ.onQuote b a).1 = signalNone ∧ (σ.onQuote b a).2.rejects = σ.rejects := by
  simp only [onQuote, h]
  split_ifs <;> exact ⟨rfl, rfl⟩

/-- A quote that is no reason for anything. -/
theorem onQuote_none (hwant : σ.want (b.toNat + a.toNat) = signalNone) :
    (σ.onQuote b a).1 = signalNone ∧ (σ.onQuote b a).2.rejects = σ.rejects := by
  simp only [onQuote, hwant]
  split_ifs <;> exact ⟨rfl, rfl⟩

/-- A quote that is a reason to trade. -/
theorem onQuote_side {side : Side} (hb : b ≠ 0) (ha : a ≠ 0) (h : σ.anchor ≠ 0)
    (hen : σ.enabled = true) (hwant : σ.want (b.toNat + a.toNat) = side.signal) :
    (σ.Room side → (σ.onQuote b a).1 = side.signal ∧ (σ.onQuote b a).2.rejects = σ.rejects) ∧
    (¬σ.Room side → (σ.onQuote b a).1 = signalNone ∧
      (σ.onQuote b a).2.rejects = σ.rejects + 1) := by
  have hsides : signalBuy ≠ signalNone ∧ signalSell ≠ signalNone ∧ signalBuy ≠ signalSell := by
    decide
  cases side with
  | buy =>
    simp only [onQuote, if_neg (not_or.mpr ⟨hb, ha⟩), if_neg h, hwant, hen, Side.signal, Room,
      if_neg hsides.1, hsides.2.2, true_and, false_and, if_false, Bool.true_eq_false, ← not_lt]
    split_ifs with hroom
    · exact ⟨fun _ => ⟨rfl, rfl⟩, fun hc => absurd hroom hc⟩
    · exact ⟨fun hc => absurd hc hroom, fun _ => ⟨rfl, rfl⟩⟩
  | sell =>
    simp only [onQuote, if_neg (not_or.mpr ⟨hb, ha⟩), if_neg h, hwant, hen, Side.signal, Room,
      if_neg hsides.2.1, hsides.2.2.symm, true_and, false_and, if_false, Bool.true_eq_false,
      ← not_lt]
    split_ifs with hroom
    · exact ⟨fun _ => ⟨rfl, rfl⟩, fun hc => absurd hroom hc⟩
    · exact ⟨fun hc => absurd hc hroom, fun _ => ⟨rfl, rfl⟩⟩

end SoftStrategy

namespace Mirror

/-! ### The invariant -/

/-- The output words as they were before the event. -/
structure Unpublished (h : Mirror) (m : Addr → Word) : Prop where
  signals : m signalSeq = h.oldSignals
  rejects : m rejects = h.oldRejects

/-- The output words say what the software has returned. -/
structure Published (h : Mirror) (m : Addr → Word) : Prop where
  signals : m signalSeq = h.oldSignals + if h.returned = signalNone then 0 else 1
  side : h.returned ≠ signalNone → m signal = h.returned
  rejects : m rejects = h.oldRejects + if h.soft.rejects = h.prev.rejects then 0 else 1

/-- The program's registers before the event. -/
structure Before (h : Mirror) (r : Regs) : Prop where
  anchor : r.anchor.toInt = h.prev.anchor
  position : r.position.toInt = h.prev.position
  tick : r.tick = h.oldTick
  fill : r.fill = h.oldFill

/-- The program's registers after the event. -/
structure Moved (h : Mirror) (r : Regs) : Prop where
  anchor : r.anchor.toInt = h.soft.anchor
  position : r.position.toInt = h.soft.position
  tick : r.tick = h.fpga.tickSeq
  fill : r.fill = h.fpga.fillSeq

/-- The program has not seen the event. -/
structure Old (h : Mirror) (r : Regs) (m : Addr → Word) : Prop where
  event : h.event ≠ none
  regs : h.Before r
  outputs : h.Unpublished m

/-- The program is done with the event. -/
structure New (h : Mirror) (r : Regs) (m : Addr → Word) : Prop where
  todo : h.todo = []
  regs : h.Moved r
  outputs : h.event ≠ none → h.Published m

/-- The last event is a quote. -/
def Quoted (h : Mirror) (bid ask : Word) : Prop :=
  ∃ bidSize askSize, h.event = some (.quote bid ask bidSize askSize)

/-- The program is at work on the event. -/
structure Busy (h : Mirror) (m : Addr → Word) : Prop where
  todo : h.todo = []
  beats : h.beats ≤ 1
  outputs : h.Unpublished m

/-- The fill counter has been read, the position is still to be changed. -/
structure Filling (h : Mirror) (r : Regs) (m : Addr → Word) (bought : Bool) : Prop where
  busy : h.Busy m
  event : h.event = some (.fill bought)
  anchor : r.anchor.toInt = h.prev.anchor
  position : r.position.toInt = h.prev.position
  tick : r.tick = h.fpga.tickSeq
  fill : r.fill = h.fpga.fillSeq

/-- The new quote is being read. -/
structure Reading (h : Mirror) (r : Regs) (m : Addr → Word) (seq : Word) : Prop where
  busy : h.Busy m
  old : h.Old r m
  seq : seq = h.fpga.tickSeq

/-- The quote has been committed, and is a reason for a decision. -/
structure Wanting (h : Mirror) (r : Regs) (m : Addr → Word) (side : Side) : Prop where
  busy : h.Busy m
  moved : h.Moved r
  anchored : h.prev.anchor ≠ 0
  quoted : ∃ bid ask, h.Quoted bid ask ∧
    h.prev.want (bid.toNat + ask.toNat) = side.signal

/-- The decision is being published. -/
structure Emitting (h : Mirror) (r : Regs) (m : Addr → Word) : Prop where
  busy : h.Busy m
  moved : h.Moved r
  returned : h.returned ≠ signalNone
  rejects : h.soft.rejects = h.prev.rejects

/-- The decision is being counted as rejected. -/
structure Rejecting (h : Mirror) (r : Regs) (m : Addr → Word) : Prop where
  busy : h.Busy m
  moved : h.Moved r
  returned : h.returned = signalNone
  rejects : h.soft.rejects = h.prev.rejects + 1

/-- **The program's invariant**, point by point. -/
def Body (t : Thread) (m : Addr → Word) (h : Mirror) : Prop :=
  match t.point with
  | .initPosition => h.event = none ∧ h.beats = 0 ∧ t.regs.anchor = 0 ∧ t.regs.tick = 0
  | .initFill => h.event = none ∧ h.beats = 0 ∧ t.regs.anchor = 0 ∧ t.regs.tick = 0 ∧
      t.regs.position.toInt = h.prev.position
  | .clear _ | .setStatus | .setVersion => h.event = none ∧ h.beats = 0 ∧ h.Moved t.regs
  | .loop | .beat => h.Old t.regs m ∧ h.beats = 0 ∨ h.New t.regs m
  | .restart | .fillSeq => h.Old t.regs m ∧ h.beats ≤ 1 ∨ h.New t.regs m
  | .fillSide => ∃ bought, h.Filling t.regs m bought
  | .fillQty side => ∃ bought, h.Filling t.regs m bought ∧ side = MarketEvent.side bought
  | .addFill bought qty => h.Filling t.regs m bought ∧ qty = 1
  | .storePosition => h.beats ≤ 1 ∧ h.New t.regs m
  | .tickSeq => h.Old t.regs m ∧ (h.beats = 0 ∨ h.beats ≤ 1 ∧ ∃ bid ask, h.Quoted bid ask) ∨
      h.New t.regs m
  | .bid seq => h.Reading t.regs m seq ∧ ∃ bid ask, h.Quoted bid ask
  | .ask seq => h.Reading t.regs m seq ∧ ∃ ask, h.Quoted t.regs.bid ask
  | .tickSeq2 seq | .commit seq => h.Reading t.regs m seq ∧ h.Quoted t.regs.bid t.regs.ask
  | .thresh sum => h.Busy m ∧ h.prev.anchor ≠ 0 ∧ h.Before { t.regs with tick := h.oldTick } ∧
      t.regs.tick = h.fpga.tickSeq ∧ ∃ bid ask, h.Quoted bid ask ∧ sum = bid + ask
  | .enable side | .maxPos side => h.Wanting t.regs m side
  | .signal side => h.Emitting t.regs m ∧ h.returned = side.signal
  | .signalTick | .status | .signalSeq => h.Emitting t.regs m ∧ m signal = h.returned
  | .signalSeqStore v => h.Emitting t.regs m ∧ m signal = h.returned ∧ v = h.oldSignals + 1
  | .rejectStatus _ | .rejects => h.Rejecting t.regs m
  | .rejectsStore v => h.Rejecting t.regs m ∧ v = h.oldRejects + 1
  | .clearRestart | .skew | .halfSpread _ | .quoteBid | .quoteAsk => False

/-- The configuration, and what the software has at any time. -/
structure Config (m : Addr → Word) (h : Mirror) : Prop where
  thresh : m cfgThresh = h.prev.threshold
  maxPos : m cfgMaxPos = h.prev.maxPosition
  enable : m cfgEnable = 1
  restart : m cfgRestart = 0
  enabled : h.prev.enabled = true
  range : 0 ≤ h.prev.anchor ∧ h.prev.anchor < 2 ^ 31
  even : h.fpga.tickSeq &&& 1 = 0
  idle : h.todo ≠ [] → h.beats = 0

/-- How far a publish has come. -/
structure Quoting (m : Addr → Word) (h : Mirror) (bid ask bidSize askSize : Word) : Prop where
  tick : h.fpga.tickSeq = h.oldTick + 2
  fill : h.fpga.fillSeq = h.oldFill ∧ m fillSeq = h.oldFill
  stage : ∃ k ≤ 6,
    h.todo = List.drop k [(tickSeq, h.oldTick + 1), (Fmma.bid, bid), (Fmma.ask, ask),
      (Fmma.bidSize, bidSize), (Fmma.askSize, askSize), (tickSeq, h.oldTick + 2)] ∧
    m tickSeq = h.oldTick + (if k = 0 then 0 else if k < 6 then 1 else 2) ∧
    (2 ≤ k → m Fmma.bid = bid) ∧ (3 ≤ k → m Fmma.ask = ask)

/-- How far the report of a fill has come. -/
structure Reporting (m : Addr → Word) (h : Mirror) (bought : Bool) : Prop where
  tick : h.fpga.tickSeq = h.oldTick ∧ m tickSeq = h.oldTick
  fill : h.fpga.fillSeq = h.oldFill + 1
  stage : ∃ k ≤ 3,
    h.todo = List.drop k [(fillSide, MarketEvent.side bought), (fillQty, 1),
      (fillSeq, h.oldFill + 1)] ∧
    m fillSeq = h.oldFill + (if k < 3 then 0 else 1) ∧
    (1 ≤ k → m fillSide = MarketEvent.side bought) ∧ (2 ≤ k → m fillQty = 1)

/-- What the driver has stored of the event. -/
def Stored (m : Addr → Word) (h : Mirror) : Prop :=
  match h.event with
  | none => h.todo = [] ∧ m tickSeq = h.fpga.tickSeq ∧ m fillSeq = h.fpga.fillSeq ∧
      (m cfgPosition).toInt = h.prev.position ∧ h.prev.anchor = 0 ∧ h.fpga.tickSeq = 0
  | some (.quote bid ask bidSize askSize) => Quoting m h bid ask bidSize askSize
  | some (.fill bought) => Reporting m h bought

/-- The invariant of the board. -/
structure Inv (t : Thread) (m : Addr → Word) (h : Mirror) : Prop where
  config : Config m h
  stored : Stored m h
  event : ∀ e, h.event = some e → e.Admissible ∧ e.Faithful h.prev
  body : Body t m h

end Mirror

end Fmma
