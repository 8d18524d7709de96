import Fmma.Strategy.Symbolic
import Fmma.Strategy.Thread
import Mathlib.Tactic.FinCases

/-!
# Where the strategies are in their images

The relation between a strategy's state and the CPU that runs its program: each point has a
word index, that of the instruction that makes its access, and fixes what the registers hold
there.
-/

namespace Fmma

namespace Strategy

/-! ### The layout -/

/-- The points, without what they hold. -/
def points : List Point :=
  [.initPosition, .initFill, .clear 0, .clear 1, .clear 2, .clear 3, .clear 4, .clear 5, .clear 6,
    .setStatus, .setVersion, .loop, .beat, .restart, .clearRestart, .fillSeq, .fillSide,
    .fillQty 0, .addFill true 0, .addFill false 0, .storePosition, .tickSeq, .bid 0, .ask 0,
    .tickSeq2 0, .commit 0, .thresh 0, .skew, .halfSpread 0, .quoteBid, .quoteAsk, .enable .buy,
    .enable .sell, .maxPos .buy, .maxPos .sell, .signal .buy, .signalTick, .status, .signalSeq,
    .signalSeqStore 0, .rejectStatus 0, .rejects, .rejectsStore 0]

/-- A point without what it holds: the place. -/
def place : Point → Point
  | .fillQty _ => .fillQty 0
  | .addFill b _ => .addFill b 0
  | .bid _ => .bid 0
  | .ask _ => .ask 0
  | .tickSeq2 _ => .tickSeq2 0
  | .commit _ => .commit 0
  | .thresh _ => .thresh 0
  | .halfSpread _ => .halfSpread 0
  | .signal _ => .signal .buy
  | .signalSeqStore _ => .signalSeqStore 0
  | .rejectStatus _ => .rejectStatus 0
  | .rejectsStore _ => .rejectsStore 0
  | p => p

/-- The points a strategy has: the band test is one program's, quoting the other's. -/
def Has (s : Strategy) (p : Point) : Prop :=
  match s, p with
  | trading, .skew => False
  | trading, .halfSpread _ => False
  | trading, .quoteBid => False
  | trading, .quoteAsk => False
  | marketMaker, .thresh _ => False
  | _, _ => True

/-- The word index of a point, in `trading.asm` and in `market_maker.asm`. -/
def pcOf (s : Strategy) : Point → Addr
  | .initPosition => s.pick 16 17
  | .initFill => s.pick 18 19
  | .clear i => s.pick 21 22 + BitVec.ofNat 10 (2 * i)
  | .setStatus => s.pick 36 37
  | .setVersion => s.pick 44 54
  | .loop => s.pick 46 56
  | .beat => s.pick 47 57
  | .restart => s.pick 49 59
  | .clearRestart => s.pick 155 179
  | .fillSeq => s.pick 53 63
  | .fillSide => s.pick 58 68
  | .fillQty _ => s.pick 60 70
  | .addFill true _ => s.pick 63 73
  | .addFill false _ => s.pick 65 75
  | .storePosition => s.pick 67 77
  | .tickSeq => s.pick 68 78
  | .bid _ => s.pick 77 87
  | .ask _ => s.pick 79 89
  | .tickSeq2 _ => s.pick 80 90
  | .commit _ => s.pick 83 93
  | .thresh _ => s.pick 93 0
  | .enable .buy => s.pick 107 132
  | .enable .sell => s.pick 119 143
  | .maxPos .buy => s.pick 111 136
  | .maxPos .sell => s.pick 123 147
  | .signal _ => s.pick 132 156
  | .signalTick => s.pick 134 158
  | .status => s.pick 137 161
  | .signalSeq => s.pick 139 163
  | .signalSeqStore _ => s.pick 141 165
  | .rejectStatus _ => s.pick 148 172
  | .rejects => s.pick 150 174
  | .rejectsStore _ => s.pick 152 176
  | .skew => s.pick 0 112
  | .halfSpread _ => s.pick 0 116
  | .quoteBid => s.pick 0 125
  | .quoteAsk => s.pick 0 129

/-- The places of a program are different words. -/
theorem place_eq_of_pcOf_eq {s : Strategy} {p q : Point} (hp : s.Has p) (hq : s.Has q)
    (h : s.pcOf p = s.pcOf q) : place p = place q := by
  have hfind : ∀ p, s.Has p →
      points.find? (fun q => s.pcOf q == s.pcOf p) = some (place p) := by
    intro p hp
    cases p
    case clear i => fin_cases i <;> cases s <;> rfl
    case addFill b _ => cases b <;> cases s <;> rfl
    case enable d => cases d <;> cases s <;> rfl
    case maxPos d => cases d <;> cases s <;> rfl
    all_goals cases s
    all_goals first
      | rfl
      | exact hp.elim
  have hpq := hfind p hp
  rw [h, hfind q hq, Option.some.injEq] at hpq
  exact hpq.symm

/-- Only the points a program has are at its words. -/
theorem has_of_pcOf_eq {s : Strategy} {p q : Point} (hq : s.Has q) (h : s.pcOf p = s.pcOf q) :
    s.Has p := by
  have hzero : ∀ q, s.Has q → s.pcOf q ≠ 0 := by
    intro q hq
    cases q
    case clear i => fin_cases i <;> cases s <;> decide
    case addFill b _ => cases b <;> cases s <;> simp [pcOf, pick]
    case enable d => cases d <;> cases s <;> decide
    case maxPos d => cases d <;> cases s <;> decide
    all_goals cases s
    all_goals first
      | exact hq.elim
      | simp [pcOf, pick]
  by_contra hp
  refine hzero q hq ?_
  rw [← h]
  cases p <;> cases s
  all_goals first
    | rfl
    | exact absurd trivial hp

/-- The point at a word. -/
theorem place_of_pcOf_eq {s : Strategy} {p q : Point} (hq : s.Has q) (h : s.pcOf p = s.pcOf q) :
    place p = place q :=
  place_eq_of_pcOf_eq (has_of_pcOf_eq hq h) hq h

/-- What the scratch registers hold at a point. -/
def scratch (s : Strategy) (t : Thread) : Pins :=
  match t.point with
  | .initPosition => [(4, asWord cfgPosition)]
  | .initFill => [(4, asWord Fmma.fillSeq)]
  | .clear i => [(4, asWord (s.clearOrder i)), (7, 0)]
  | .setStatus => [(4, asWord Fmma.status), (7, statusRunning)]
  | .setVersion => [(4, asWord fwVersion), (7, protocolVersion)]
  | .loop => []
  | .beat => []
  | .restart => [(4, asWord cfgRestart)]
  | .clearRestart => [(4, asWord cfgRestart), (8, 0)]
  | .fillSeq => [(4, asWord Fmma.fillSeq)]
  | .fillSide => [(4, asWord Fmma.fillSide)]
  | .fillQty side => [(4, asWord Fmma.fillQty), (8, side)]
  | .addFill _ qty => [(4, qty)]
  | .storePosition => [(4, asWord position)]
  | .tickSeq => []
  | .bid seq => [(4, asWord Fmma.bid), (7, seq)]
  | .ask seq => [(4, asWord Fmma.ask), (7, seq)]
  | .tickSeq2 seq => [(7, seq)]
  | .commit seq => [(7, seq)]
  | .thresh sum => [(4, asWord cfgThresh), (7, sum)]
  | .skew => [(4, asWord cfgSkew)]
  | .halfSpread skew2 => [(4, asWord cfgHalfSpread), (7, skew2)]
  | .quoteBid => [(4, asWord Fmma.quoteBid), (7, t.regs.anchor >>> 1)]
  | .quoteAsk => [(4, asWord Fmma.quoteAsk), (7, t.regs.ask2 >>> 1)]
  | .enable _ => [(4, asWord cfgEnable)]
  | .maxPos _ => [(4, asWord cfgMaxPos)]
  | .signal side => [(4, asWord Fmma.signal), (7, side.signal)]
  | .signalTick => [(4, asWord Fmma.signalTick)]
  | .status => [(4, asWord Fmma.status), (7, statusRunning)]
  | .signalSeq => [(4, asWord Fmma.signalSeq)]
  | .signalSeqStore v => [(4, asWord Fmma.signalSeq), (8, v)]
  | .rejectStatus v => [(4, asWord Fmma.status), (7, v)]
  | .rejects => [(4, asWord Fmma.rejects)]
  | .rejectsStore v => [(4, asWord Fmma.rejects), (8, v)]

/-- `R15` holds the address of `LOOP` once `INIT` is over. -/
def loopPin (s : Strategy) (p : Point) : Pins :=
  match p with
  | .initPosition => []
  | .initFill => []
  | .clear _ => []
  | .setStatus => []
  | .setVersion => []
  | _ => [(15, asWord s.loopAt)]

/-- `R10` lives across points in `market_maker.asm` only. -/
def ask2Pin (s : Strategy) (r : Regs) : Pins :=
  s.pick [] [(10, r.ask2)]

/-- The registers that matter at a point: first the scratch registers, then those that live
across points. -/
def pins (s : Strategy) (t : Thread) : Pins :=
  s.scratch t ++
    [(0, 0), (1, 1), (2, asWord Fmma.tickSeq), (3, asWord heartbeat), (5, t.regs.bid),
      (6, t.regs.ask), (9, t.regs.anchor), (11, t.regs.tick), (12, t.regs.beat),
      (13, t.regs.position), (14, t.regs.fill)] ++
    s.ask2Pin t.regs ++ s.loopPin t.point

/-- **Correspondence.** The CPU is at the strategy's point. -/
structure Corr (s : Strategy) (t : Thread) (c : Core) : Prop where
  has : s.Has t.point
  pc : c.pc = s.pcOf t.point
  pins : (s.pins t).Holds c.regs

/-- The CPU is on its way to the strategy's point. -/
def Sim (s : Strategy) (t : Thread) (c : Core) : Prop := Leads s.quiet (s.Corr t) c

/-- The CPU at a point does what the strategy does there: it executes an instruction, makes the
strategy's access, and is then on its way to the strategy's next point. -/
structure Follows (s : Strategy) (t : Thread) (c : Core) (mem : Addr → Word) : Prop where
  running : s.code c.pc ≠ .halt ∧ s.code c.pc ≠ .undefined
  access : c.access (s.code c.pc) = t.access s
  sim : s.Sim (t.step s mem) (c.execute (s.code c.pc) mem)

/-- Where the CPU is says at which point the strategy is. -/
theorem Corr.place_eq {s : Strategy} {t : Thread} {c : Core} (h : s.Corr t c) {p : Point}
    (hp : s.Has p) (hpc : c.pc = s.pcOf p) : place t.point = place p :=
  place_eq_of_pcOf_eq h.has hp (h.pc.symm.trans hpc)

/-- The registers that live across points, at any point. -/
structure Corr.Live (t : Thread) (c : Core) : Prop where
  bid : c.regs 5 = t.regs.bid
  ask : c.regs 6 = t.regs.ask
  anchor : c.regs 9 = t.regs.anchor
  tick : c.regs 11 = t.regs.tick
  beat : c.regs 12 = t.regs.beat
  position : c.regs 13 = t.regs.position
  fill : c.regs 14 = t.regs.fill

theorem Corr.live {s : Strategy} {t : Thread} {c : Core} (h : s.Corr t c) : Corr.Live t c := by
  obtain ⟨-, -, hpins⟩ := h
  obtain ⟨point, r⟩ := t
  refine ⟨hpins _ _ ?_, hpins _ _ ?_, hpins _ _ ?_, hpins _ _ ?_, hpins _ _ ?_, hpins _ _ ?_,
    hpins _ _ ?_⟩ <;> cases point <;> rfl

section Rules

variable {s : Strategy} {t : Thread} {c : Core} {mem : Addr → Word} {env : Pins}
  {r : RegId → Word} {f : Flags} {p x : Addr} {rd rs ra : RegId} {a b : Word} {op : AluOp}

/-- The end of a stretch: the pins of the point are among the known registers. -/
theorem corr_of_holds (hr : env.Holds r) (has : s.Has t.point) (hp : p = s.pcOf t.point)
    (hpins : (s.pins t).Forall fun q => env.lookup q.1 = some q.2) : s.Corr t ⟨r, f, p⟩ :=
  ⟨has, hp, hr.sub hpins⟩

/-- A point that loads. -/
theorem follows_load (h : s.Corr t c) (hc : s.code (s.pcOf t.point) = .load rd ra)
    (ha : (s.pins t).lookup ra = some (asWord x)) (hx : t.access s = some (.load x))
    (hex : s.Exec ((rd, mem x) :: s.pins t) (s.pcOf t.point + 1) (s.Corr (t.resume s (mem x)))) :
    s.Follows t c mem := by
  have haddr : c.addr ra = x := by
    rw [Core.addr, h.pins ra _ ha, setWidth_asWord]
  refine ⟨by rw [h.pc, hc]; exact ⟨by rintro ⟨⟩, by rintro ⟨⟩⟩, ?_, ?_⟩
  · rw [h.pc, hc, hx, Core.access, haddr]
  · simp only [h.pc, hc, Thread.step_load hx, Core.execute, haddr]
    exact hex _ _ (h.pins.update rd _)

/-- A point that stores. -/
theorem follows_stor (h : s.Corr t c) (hc : s.code (s.pcOf t.point) = .stor rs ra)
    (ha : (s.pins t).lookup ra = some (asWord x)) (hb : (s.pins t).lookup rs = some b)
    (hx : t.access s = some (.store x b))
    (hex : s.Exec (s.pins t) (s.pcOf t.point + 1) (s.Corr (t.resume s (mem x)))) :
    s.Follows t c mem := by
  have haddr : c.addr ra = x := by
    rw [Core.addr, h.pins ra _ ha, setWidth_asWord]
  refine ⟨by rw [h.pc, hc]; exact ⟨by rintro ⟨⟩, by rintro ⟨⟩⟩, ?_, ?_⟩
  · rw [h.pc, hc, hx, Core.access, haddr, h.pins rs _ hb]
  · simp only [h.pc, hc, Thread.step_store hx, Core.execute]
    exact hex _ _ h.pins

/-- A point that touches no memory. -/
theorem follows_stop (h : s.Corr t c) (hc : s.code (s.pcOf t.point) = .rtype (some op) rd rs)
    (hop : writesResult (some op) = true) (ha : (s.pins t).lookup rd = some a)
    (hb : (s.pins t).lookup rs = some b) (hx : t.access s = none)
    (hex : s.Exec ((rd, (alu (some op) a b false).1) :: s.pins t) (s.pcOf t.point + 1)
      (s.Corr (t.resume s 0))) :
    s.Follows t c mem := by
  refine ⟨by rw [h.pc, hc]; exact ⟨by rintro ⟨⟩, by rintro ⟨⟩⟩, ?_, ?_⟩
  · rw [h.pc, hc, hx]
    rfl
  · simp only [h.pc, hc, Thread.step_none hx, Core.execute, Core.executeAlu, hop,
      h.pins rd _ ha, h.pins rs _ hb]
    exact hex _ _ (h.pins.update rd _)

end Rules

end Strategy

end Fmma
