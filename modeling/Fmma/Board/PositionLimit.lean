import Fmma.Board.Fills

/-!
# The position limit

A program allows a decision by comparing its position with `CFG_MAX_POS`; the position moves only
when the fill of the decision comes back, any number of quotes later. A `Desk` is the reporter of
fills with a record of the decisions that have not been filled. The inventory stays within the
limit as long as every decision finds room for all the unfilled ones of its side
(`Desk.HasRoom`); the program itself looks at the filled position only, which is enough when a
decision is published after every earlier one of its side has been filled and applied.
-/

namespace Fmma

/-- What a decision does to the inventory once it is filled, in lots. -/
def Side.sign : Side → Int
  | .buy => 1
  | .sell => -1

/-- The fill of a decision: one lot of its side. -/
def Side.lot : Side → Fill
  | .buy => ⟨fillBought, 1⟩
  | .sell => ⟨fillSold, 1⟩

/-- The side a host reads in `SIGNAL`. -/
def Side.ofSignal (v : Word) : Side := if v = signalBuy then .buy else .sell

@[simp]
theorem Side.ofSignal_signal (d : Side) : Side.ofSignal d.signal = d := by
  cases d <;> rfl

/-- The sum of the fills of a list of decisions. -/
def lots (l : List Side) : Int := (l.map Side.sign).sum

@[simp]
theorem lots_cons (d : Side) (l : List Side) : lots (d :: l) = d.sign + lots l := by
  rw [lots, List.map_cons, List.sum_cons, lots]

/-- The host as a desk that fills decisions, with the record of the run. -/
structure Desk where
  reports : Reporter
  /-- For each side, how many decisions have not been filled. -/
  outstanding : Side → Nat
  /-- The side of the fill under way. -/
  current : Side
  /-- The sides of all fills reported, the last one first. -/
  filled : List Side
  /-- The CPU has loaded `CFG_POSITION`. -/
  adopted : Bool
  /-- The CPU has stored `POSITION`. -/
  shown : Bool

namespace Desk

/-- The host has made a store of a report; the last one settles a decision. -/
def stored (h : Desk) : List (Addr × Word) → Desk
  | [] => { h with
      reports := h.reports.stored []
      filled := h.current :: h.filled
      outstanding := fun d =>
        if d = h.current then h.outstanding d - 1 else h.outstanding d }
  | p :: rest => { h with reports := h.reports.stored (p :: rest) }

/-- What the host does: it reports the fill of a decision that has not been filled, once the
program has read the report before, and it stores anything else into the input block (quotes, the
switch, the other parameters), but for the limit, the start position and the restart request. -/
inductive Act : Desk → (Addr → Word) → Option (Access Addr Word) → Desk → Prop
  | report {h : Desk} {m : Addr → Word} (d : Side) (hopen : 0 < h.outstanding d)
    (hidle : h.reports.todo = []) (hdeclared : h.reports.declared = true)
    (hread : h.reports.pending = false ∧ h.reports.stage = .idle) :
    Act h m none { h with reports := h.reports.report d.lot, current := d }
  | store {h : Desk} {m : Addr → Word} {a : Addr} {v : Word} {rest : List (Addr × Word)}
    (htodo : h.reports.todo = (a, v) :: rest) (hin : inputBase ≤ a) :
    Act h m (some (.store a v)) (h.stored rest)
  | other {h : Desk} {m : Addr → Word} (a : Addr) (v : Word)
    (hin : inputBase ≤ a ∧ a < outputBase)
    (hne : a ∉ [fillSeq, fillSide, fillQty, cfgRestart, cfgPosition, cfgMaxPos]) :
    Act h m (some (.store a v)) h

/-- What an access of the CPU adds to the record: the store of `SIGNAL_SEQ` in `EMIT` publishes a
decision. -/
def observe (s : Strategy) (h : Desk) (i : Addr) (x : Access Addr Word) (m : Addr → Word) : Desk :=
  { h with
    reports := h.reports.observe s i x
    outstanding :=
      if i = s.pcOf (.signalSeqStore 0) then
        fun d => if d = .ofSignal (m signal) then h.outstanding d + 1 else h.outstanding d
      else h.outstanding
    adopted := h.adopted || x == .load cfgPosition
    shown := h.shown || match x with
      | .load _ => false
      | .store a _ => a == position }

/-- The position the host keeps, from the start position and the fills it has reported. -/
def holding (start : Word) (h : Desk) : Int := start.toInt + lots h.filled

/-- The decisions of a side the CPU has not applied: not filled, or filled and not noticed. -/
def unapplied (h : Desk) (d : Side) : Nat :=
  h.outstanding d + if h.reports.pending = true ∧ h.filled.head? = some d then 1 else 0

/-- **The condition on a decision**: it is the only one of its side that is not applied, or the
limit has room for it and the unfilled ones of its side. -/
def HasRoom (s : Strategy) (limit start : Word) (h : Desk) (i : Addr) (_ : Access Addr Word)
    (m : Addr → Word) : Prop :=
  i = s.pcOf (.signalSeqStore 0) → h.unapplied (.ofSignal (m signal)) = 0 ∨
    (Side.ofSignal (m signal)).sign * h.holding start +
      h.outstanding (.ofSignal (m signal)) + 1 ≤ limit.toInt

/-- The host has taken over a CPU in `INIT`: nothing has been decided or reported. -/
def Starts (limit start : Word) (m : Addr → Word) (h : Desk) : Prop :=
  m cfgMaxPos = limit ∧ h.reports.Starts start m ∧ h.outstanding = (fun _ => 0) ∧
    h.filled = [] ∧ h.adopted = false ∧ h.shown = false

end Desk

/-- The host as a desk. -/
def desk (s : Strategy) : Host Desk where
  act := Desk.Act
  observe h i x m := h.observe s i x m

/-- The host as a desk, in runs in which every decision has room. -/
def deskWithin (s : Strategy) (limit start : Word) : Host Desk :=
  (desk s).restrict (Desk.HasRoom s limit start) fun _ _ _ => True

/-! ### Lots as words -/

/-- The fills of a list of decisions, as the program adds them up. -/
theorem netOf_lots (l : List Side) : netOf (l.map Side.lot) = BitVec.ofInt 32 (lots l) := by
  induction l with
  | nil => rfl
  | cons d l ih =>
    have hd : d.lot.signed = BitVec.ofInt 32 d.sign := by cases d <;> decide
    rw [List.map_cons, netOf_cons, ih, hd, lots_cons, BitVec.ofInt_add]

/-- A position within the limit, as a word and as a number. -/
theorem toInt_add_lots {start limit : Word} {l : List Side}
    (h : ∀ d : Side, d.sign * (start.toInt + lots l) ≤ limit.toInt) :
    (start + netOf (l.map Side.lot)).toInt = start.toInt + lots l := by
  have hbuy := h .buy
  have hsell := h .sell
  have hlimit := BitVec.toInt_lt (x := limit)
  simp only [Side.sign] at hbuy hsell
  rw [netOf_lots, BitVec.toInt_add, BitVec.toInt_ofInt, Int.add_bmod_bmod]
  exact Int.bmod_eq_of_le (by omega) (by omega)

/-- What the program's comparison says. -/
theorem Strategy.allowed_iff {d : Side} {r : Regs} {limit : Word} (h0 : 0 ≤ limit.toInt) :
    allowed d r limit = true ↔ d.sign * r.position.toInt < limit.toInt := by
  have hlimit := BitVec.toInt_lt (x := limit)
  cases d with
  | buy => simp only [allowed, Side.sign, decide_eq_true_eq, one_mul]
  | sell =>
    have hneg : (0 - limit).toInt = -limit.toInt := by
      rw [BitVec.toInt_sub, show (0 : Word).toInt = 0 from rfl, Int.zero_sub]
      exact Int.bmod_eq_of_le (by omega) (by omega)
    simp only [allowed, Side.sign, decide_eq_true_eq, hneg]
    omega

/-! ### The invariant -/

namespace Desk

/-- The limit test, remembered up to the publication of the decision. -/
def Deciding (limit : Word) (t : Thread) (m : Addr → Word) : Prop :=
  match t.point with
  | .signal d => Strategy.allowed d t.regs limit = true
  | .signalTick => Strategy.allowed (.ofSignal (m signal)) t.regs limit = true
  | .status => Strategy.allowed (.ofSignal (m signal)) t.regs limit = true
  | .signalSeq => Strategy.allowed (.ofSignal (m signal)) t.regs limit = true
  | .signalSeqStore _ => Strategy.allowed (.ofSignal (m signal)) t.regs limit = true
  | _ => True

/-- A report is under way only for an unfilled decision. -/
structure Settles (h : Desk) : Prop where
  current : h.reports.current = h.current.lot
  unfilled : 0 < h.outstanding h.current

/-- **The limit and the fills to come**: the position after every report so far has been within
the limit, and the unfilled decisions of one side fit too. -/
structure Bounded (limit start : Word) (h : Desk) : Prop where
  before : ∀ l, l <:+ h.filled → ∀ d : Side, d.sign * (start.toInt + lots l) ≤ limit.toInt
  after : ∀ d : Side, d.sign * h.holding start + h.outstanding d ≤ limit.toInt

/-- The invariant of the board. -/
structure Inv (s : Strategy) (limit start : Word) (t : Thread) (m : Addr → Word) (h : Desk) :
    Prop where
  reports : Reporter.Inv s start t m h.reports
  once : h.reports.Once t m
  waited : h.reports.Waited
  config : m cfgMaxPos = limit
  fills : h.reports.fills = h.filled.map Side.lot
  settles : h.reports.todo ≠ [] → h.Settles
  bounded : h.Bounded limit start
  deciding : Deciding limit t m
  adopted : h.adopted = true → t.point ≠ .initPosition
  shown : h.shown = true → ∀ d : Side, d.sign * (m Fmma.position).toInt ≤ limit.toInt

variable {s : Strategy} {limit start : Word} {t : Thread} {m m' : Addr → Word} {h h' : Desk}
  {x : Option (Access Addr Word)} {r : Regs}

/-- The program's position is that of the reports up to some point. -/
theorem Inv.exists_position (hI : Inv s limit start t m h) (hp : t.point ≠ .initPosition) :
    ∃ l, l <:+ h.filled ∧ t.regs.position = start + netOf (l.map Side.lot) := by
  have hbody := hI.reports.body
  have hsuffix : ∀ {l : List Fill}, l <:+ h.reports.fills → t.regs.position = start + netOf l →
      ∃ l, l <:+ h.filled ∧ t.regs.position = start + netOf (l.map Side.lot) := by
    intro l hl hpos
    rw [hI.fills] at hl
    obtain ⟨l', hl', rfl⟩ := List.suffix_map_iff.mp hl
    exact ⟨l', hl', hpos⟩
  have hnoticed : h.reports.noticed <:+ h.reports.fills := by
    rw [Reporter.noticed]
    split_ifs
    · exact List.tail_suffix _
    · exact List.suffix_refl _
  have happlying : ∀ {f}, h.reports.Applying start f t.regs.position →
      ∃ l, l <:+ h.filled ∧ t.regs.position = start + netOf (l.map Side.lot) := by
    rintro f ⟨before, hb, hpos⟩
    exact hsuffix (((List.suffix_cons f before).trans (hb ▸ List.suffix_refl _)).trans hnoticed)
      hpos
  obtain ⟨point, r⟩ := t
  cases point with
  | initPosition => exact absurd rfl hp
  | initFill => exact ⟨[], List.nil_suffix, Eq.trans hbody (BitVec.add_zero _).symm⟩
  | clear i => exact hsuffix hnoticed hbody.2.2.1
  | fillSide => exact happlying hbody.2.2.2.2
  | fillQty side => exact happlying hbody.2.2.2.2
  | addFill b q =>
    obtain ⟨-, -, f, -, -, ha⟩ := hbody
    exact happlying ha
  | storePosition => exact hsuffix hnoticed hbody.2.2
  | _ => exact hsuffix hnoticed hbody.applied

/-- **The position is within the limit** once the program has one. -/
theorem Inv.position_le (hI : Inv s limit start t m h) (hp : t.point ≠ .initPosition) (d : Side) :
    d.sign * t.regs.position.toInt ≤ limit.toInt := by
  obtain ⟨l, hl, hpos⟩ := hI.exists_position hp
  rw [hpos, toInt_add_lots (hI.bounded.before l hl)]
  exact hI.bounded.before l hl d

/-! ### The host's steps -/

/-- Filling a decision keeps the bounds. -/
theorem Bounded.fill (hb : h.Bounded limit start) (hopen : 0 < h.outstanding h.current) :
    (h.stored []).Bounded limit start := by
  have hafter := hb.after
  have hnew : ∀ d : Side, d.sign * (start.toInt + lots (h.current :: h.filled)) ≤ limit.toInt := by
    intro d
    have hd := hafter d
    have hcur := hafter h.current
    rw [holding] at hd hcur
    rw [lots_cons]
    cases hc : h.current <;> cases d <;> simp only [hc, Side.sign] at hopen hcur hd ⊢ <;> omega
  refine ⟨fun l hl d => ?_, fun d => ?_⟩
  · rcases List.suffix_cons_iff.mp hl with rfl | hl
    · exact hnew d
    · exact hb.before l hl d
  · have hd := hafter d
    rw [holding] at hd
    change d.sign * (start.toInt + lots (h.current :: h.filled)) +
      ((if d = h.current then h.outstanding d - 1 else h.outstanding d : Nat) : Int) ≤ _
    rw [lots_cons]
    by_cases hdc : d = h.current
    · subst hdc
      rw [if_pos rfl]
      cases hc : h.current <;> simp only [hc, Side.sign] at hopen hd ⊢ <;> omega
    · rw [if_neg hdc]
      cases hc : h.current <;> cases d <;> simp only [hc, Side.sign] at hdc hd ⊢ <;> first
        | omega
        | exact absurd trivial hdc

/-- Everything the host does keeps the invariant. -/
theorem Inv.act (hI : Inv s limit start t m h) (hx : Act h m x h') :
    Inv s limit start t (Access.applyOpt m x) h' := by
  obtain ⟨hreports, honce, hwaited, hlimit, hfills, hsettles, hbounded, hdeciding, hadopted,
    hshown⟩ := hI
  cases hx with
  | report d hopen hidle hdeclared hread =>
    have hact : Reporter.Act h.reports m none _ := .report d.lot hidle hdeclared
    exact ⟨hreports.act hact trivial, honce.act hact (by rintro v ⟨⟩),
      hwaited.act hact fun _ => hread, hlimit, hfills, fun _ => ⟨rfl, hopen⟩,
      ⟨hbounded.before, hbounded.after⟩, hdeciding, hadopted, hshown⟩
  | other a v hin hne =>
    have hmem : ∀ b, outputBase ≤ b → Function.update m a v b = m b := fun b hb =>
      Function.update_of_ne (by rintro rfl; exact absurd hin.2 (BitVec.not_lt.mpr hb)) _ _
    simp only [List.mem_cons, List.not_mem_nil, or_false, not_or] at hne
    obtain ⟨h1, h2, h3, h4, h5, h6⟩ := hne
    have hact : Reporter.Act h.reports m (some (.store a v)) h.reports :=
      .other a v hin (by simp only [List.mem_cons, List.not_mem_nil, or_false, not_or]; exact
        ⟨h1, h2, h3, h5⟩)
    refine ⟨hreports.act hact (hwaited.undisturbed hact), honce.act hact ?_,
      hwaited.act hact (by rintro ⟨⟩), ?_, hfills, hsettles, hbounded, ?_, hadopted, fun hs d => ?_⟩
    · rintro w heq
      cases heq
      exact h4 rfl
    · exact (Function.update_of_ne (Ne.symm h6) _ _).trans hlimit
    · rw [Access.applyOpt_some, Access.apply_store]
      obtain ⟨point, r⟩ := t
      cases point
      all_goals simp only [Deciding, hmem signal (by decide)] at hdeciding ⊢
      all_goals exact hdeciding
    · rw [Access.applyOpt_some, Access.apply_store, hmem Fmma.position (by decide)]
      exact hshown hs d
  | @store a v rest htodo hin =>
    have hact : Reporter.Act h.reports m (some (.store a v)) _ := .store htodo hin
    have hc := hsettles (by rw [htodo]; exact List.cons_ne_nil _ _)
    have haddr := hreports.store_addr htodo
    have hne : ∀ b, b ∉ [fillSide, fillQty, fillSeq] → Function.update m a v b = m b :=
      fun b hb => Function.update_of_ne (by rintro rfl; exact hb haddr) _ _
    have hstored := hreports.act hact (hwaited.undisturbed hact)
    have honce' := honce.act hact (by
      rintro w heq
      cases heq
      exact absurd haddr (by decide))
    have hwaited' := hwaited.act hact (by rintro ⟨⟩)
    have hdeciding' : Deciding limit t (Function.update m a v) := by
      obtain ⟨point, r⟩ := t
      cases point
      all_goals simp only [Deciding, hne signal (by decide)] at hdeciding ⊢
      all_goals exact hdeciding
    have hlimit' : Function.update m a v cfgMaxPos = limit := (hne _ (by decide)).trans hlimit
    have hshown' : h.shown = true →
        ∀ d : Side, d.sign * (Function.update m a v Fmma.position).toInt ≤ limit.toInt := by
      rw [hne Fmma.position (by decide)]
      exact hshown
    cases rest with
    | nil =>
      refine ⟨hstored, honce', hwaited', hlimit', ?_, fun hne => absurd rfl hne,
        hbounded.fill hc.unfilled, hdeciding', hadopted, hshown'⟩
      change h.reports.current :: h.reports.fills = Side.lot h.current :: h.filled.map Side.lot
      rw [hc.current, hfills]
    | cons p rest =>
      exact ⟨hstored, honce', hwaited', hlimit', hfills, fun _ => ⟨hc.current, hc.unfilled⟩,
        ⟨hbounded.before, hbounded.after⟩, hdeciding', hadopted, hshown'⟩

/-! ### The program's steps -/

section Steps

variable {y : Access Addr Word}

/-- A decision is published by the store of `SIGNAL_SEQ` only. -/
theorem eq_signalSeqStore (h : s.pcOf t.point = s.pcOf (.signalSeqStore 0)) :
    ∃ v, t.point = .signalSeqStore v := by
  have hplace := Strategy.place_of_pcOf_eq (by cases s <;> trivial) h
  obtain ⟨point, r⟩ := t
  cases point <;> cases hplace
  exact ⟨_, rfl⟩

/-- The steps without an access. -/
theorem Inv.internal (hI : Inv s limit start t m h) (hnone : t.access s = none) :
    Inv s limit start (t.step s m) m h := by
  obtain ⟨hreports, honce, hwaited, hlimit, hfills, hsettles, hbounded, hdeciding, hadopted,
    hshown⟩ := hI
  refine ⟨hreports.internal hnone, honce.internal hnone, hwaited, hlimit, hfills, hsettles,
    hbounded, ?_, fun _ => Thread.resume_ne_initPosition honce.running _, hshown⟩
  rw [Thread.step_none hnone]
  obtain ⟨point, r⟩ := t
  cases point with
  | loop => trivial
  | addFill b q => trivial
  | commit seq =>
    cases s <;> simp only [Thread.resume, Strategy.consider, Strategy.setQuotes] <;> split_ifs <;>
      trivial
  | _ => cases hnone

/-- The limit test is made where the decision is taken, and stays true up to its publication. -/
theorem Deciding.access (hd : Deciding limit t m) (hlimit : m cfgMaxPos = limit)
    (hy : t.access s = some y) : Deciding limit (t.step s m) (y.apply m) := by
  obtain ⟨point, r⟩ := t
  cases point with
  | maxPos d =>
    cases hy
    rw [Thread.step_load rfl]
    simp only [Thread.resume]
    split_ifs with hallowed
    · rw [hlimit] at hallowed
      exact hallowed
    · trivial
  | signal d =>
    cases hy
    change Strategy.allowed (.ofSignal (Function.update m signal d.signal signal)) r limit = true
    rw [Function.update_self, Side.ofSignal_signal]
    exact hd
  | signalTick =>
    cases hy
    change Strategy.allowed (.ofSignal (Function.update m Fmma.signalTick r.tick signal)) r limit =
      true
    rw [Function.update_of_ne (by decide)]
    exact hd
  | status =>
    cases hy
    change Strategy.allowed
      (.ofSignal (Function.update m Fmma.status statusRunning signal)) r limit =
      true
    rw [Function.update_of_ne (by decide)]
    exact hd
  | signalSeq =>
    cases hy
    exact hd
  | clear i =>
    simp only [Thread.step, Thread.resume]
    split_ifs <;> trivial
  | restart =>
    rw [Thread.step_load rfl]
    simp only [Thread.resume]
    split_ifs <;> trivial
  | fillSeq =>
    rw [Thread.step_load rfl]
    simp only [Thread.resume]
    split_ifs <;> trivial
  | tickSeq =>
    rw [Thread.step_load rfl]
    simp only [Thread.resume]
    split_ifs <;> trivial
  | tickSeq2 seq =>
    rw [Thread.step_load rfl]
    simp only [Thread.resume]
    split_ifs <;> trivial
  | thresh sum =>
    rw [Thread.step_load rfl]
    simp only [Thread.resume, Strategy.bandTest]
    split_ifs <;> trivial
  | enable side =>
    rw [Thread.step_load rfl]
    simp only [Thread.resume]
    split_ifs <;> trivial
  | loop => cases hy
  | addFill b q => cases hy
  | commit seq => cases hy
  | _ => trivial

/-- **A decision that is the only one of its side finds room**: the program's limit test. -/
theorem Inv.room_of_unapplied (hI : Inv s limit start t m h) {v : Word}
    (hp : t.point = .signalSeqStore v) (h0 : h.unapplied (.ofSignal (m signal)) = 0) :
    (Side.ofSignal (m signal)).sign * h.holding start +
      h.outstanding (.ofSignal (m signal)) + 1 ≤ limit.toInt := by
  obtain ⟨hreports, -, -, -, hfills, -, hbounded, hdeciding, -, -⟩ := hI
  have hbody := hreports.body
  obtain ⟨point, r⟩ := t
  cases hp
  have htest : Strategy.allowed (.ofSignal (m signal)) r limit = true := hdeciding
  generalize Side.ofSignal (m signal) = d at h0 htest ⊢
  rw [unapplied, Nat.add_eq_zero_iff] at h0
  obtain ⟨hopen, hhead⟩ := h0
  have hlimit : 0 ≤ limit.toInt := by
    have hbuy := hbounded.before _ (List.suffix_refl _) .buy
    have hsell := hbounded.before _ (List.suffix_refl _) .sell
    simp only [Side.sign] at hbuy hsell
    omega
  have hallowed := (Strategy.allowed_iff hlimit).mp htest
  rw [hbody.applied, Reporter.noticed] at hallowed
  cases hpending : h.reports.pending with
  | false =>
    rw [hpending, if_neg Bool.false_ne_true, hfills,
      toInt_add_lots (hbounded.before _ (List.suffix_refl _))] at hallowed
    rw [hopen, holding]
    omega
  | true =>
    -- the fill not noticed is one of the other side
    have hlisted := hbody.running.listed hpending
    rw [hfills] at hlisted
    rw [hpending, if_pos rfl, hfills] at hallowed
    cases hfilled : h.filled with
    | nil =>
      rw [hfilled] at hlisted
      cases hlisted
    | cons d' rest =>
      have hne : d' ≠ d := by
        rintro rfl
        simp [hpending, hfilled] at hhead
      rw [hfilled, List.map_cons, List.tail_cons, toInt_add_lots
        (hbounded.before rest (hfilled ▸ List.suffix_cons d' rest))] at hallowed
      rw [hopen, holding, hfilled, lots_cons]
      cases d' <;> cases d <;> simp only [Side.sign] at hallowed ⊢ <;> first
        | exact absurd rfl hne
        | omega

/-- Publishing a decision with room for it keeps the bounds. -/
theorem Bounded.publish (hb : h.Bounded limit start) {d : Side}
    (hroom : d.sign * h.holding start + h.outstanding d + 1 ≤ limit.toInt) (d' : Side) :
    d'.sign * h.holding start +
      ((if d' = d then h.outstanding d' + 1 else h.outstanding d' : Nat) : Int) ≤ limit.toInt := by
  by_cases hd : d' = d
  · subst hd
    rw [if_pos rfl]
    omega
  · rw [if_neg hd]
    exact hb.after d'

/-- The accesses of the program keep the invariant. -/
theorem Inv.access (hI : Inv s limit start t m h) (hy : t.access s = some y)
    (hroom : h.HasRoom s limit start (s.pcOf t.point) y m) :
    Inv s limit start (t.step s m) (y.apply m) (h.observe s (s.pcOf t.point) y m) := by
  have hcall := h.reports.observe_call s (s.pcOf t.point) y
  refine ⟨hI.reports.access hy, hI.once.access hy, hI.waited.access hI.reports.body hy, ?_, ?_,
    fun htodo => ?_, ⟨hI.bounded.before, fun d => ?_⟩, hI.deciding.access hI.config hy,
    fun _ => Thread.resume_ne_initPosition hI.once.running _, fun hshown d => ?_⟩
  · exact (Strategy.apply_input hy (by decide) (by decide)).trans hI.config
  · have hkept := hI.once.observe_fills hy
    exact hkept.trans hI.fills
  · have hc := hI.settles (hcall.1 ▸ htodo)
    refine ⟨hcall.2.1.trans hc.current, ?_⟩
    have hmore : ∀ d, h.outstanding d ≤ (h.observe s (s.pcOf t.point) y m).outstanding d := by
      intro d
      simp only [observe]
      split_ifs
      · by_cases hd : d = .ofSignal (m signal)
        · exact (Nat.le_succ _).trans_eq (if_pos hd).symm
        · exact (if_neg hd).symm.le
      · exact le_rfl
    exact lt_of_lt_of_le hc.unfilled (hmore h.current)
  · simp only [observe]
    split_ifs with hplace
    · obtain ⟨v, hp⟩ := eq_signalSeqStore hplace
      refine hI.bounded.publish ?_ d
      rcases hroom hplace with h0 | hroom
      · exact hI.room_of_unapplied hp h0
      · exact hroom
    · exact hI.bounded.after d
  · by_cases hstore : ∃ v, y = .store Fmma.position v
    · obtain ⟨v, rfl⟩ := hstore
      rw [Access.apply_store, Function.update_self, Strategy.store_position hy]
      refine hI.position_le ?_ d
      intro heq
      simp [Thread.access, heq] at hy
    · have hsame : y.apply m Fmma.position = m Fmma.position := by
        refine Access.apply_of_ne ?_
        rintro a v rfl rfl
        exact hstore ⟨v, rfl⟩
      rw [hsame]
      refine hI.shown ?_ d
      cases y with
      | load a => simpa [observe] using hshown
      | store a v =>
        have ha : a ≠ Fmma.position := by
          rintro rfl
          exact hstore ⟨v, rfl⟩
        rcases Bool.or_eq_true_iff.mp hshown with hs | hs
        · exact hs
        · exact absurd (eq_of_beq hs) ha

end Steps

end Desk

/-! ### The limit -/

theorem desk_onlyShared (s : Strategy) : (desk s).OnlyShared := by
  rintro h m x h' hx a v rfl
  cases hx with
  | store _ hin => exact hin
  | other _ _ hin _ => exact hin.1

theorem deskWithin_onlyShared (s : Strategy) (limit start : Word) :
    (deskWithin s limit start).OnlyShared :=
  fun h m x h' hx => desk_onlyShared s h m x h' hx.1

/-- **The inventory stays within the limit**, over every run in which every decision has room:
R13 from the moment it holds the start position, and `POSITION` from its first store. -/
theorem position_within_limit (s : Strategy) {limit start : Word}
    (hstart : -limit.toInt ≤ start.toInt ∧ start.toInt ≤ limit.toInt) {c : Cpu} {h : Desk}
    (hr : cpuMachine.Reachable (deskWithin s limit start) (boot s (Desk.Starts limit start))
      (c, h)) :
    (h.adopted = true →
      -limit.toInt ≤ (c.regs 13).toInt ∧ (c.regs 13).toInt ≤ limit.toInt) ∧
    (h.shown = true →
      -limit.toInt ≤ (c.mem position).toInt ∧ (c.mem position).toInt ≤ limit.toInt) := by
  have hbounds : ∀ v : Word, (∀ d : Side, d.sign * v.toInt ≤ limit.toInt) →
      -limit.toInt ≤ v.toInt ∧ v.toInt ≤ limit.toInt := by
    intro v hv
    have hbuy := hv .buy
    have hsell := hv .sell
    simp only [Side.sign] at hbuy hsell
    omega
  obtain ⟨t, hsim, -, hI⟩ := board_invariant s (deskWithin_onlyShared s limit start)
    (I := fun t m h => Desk.Inv s limit start t m h)
    (by
      rintro r m h ⟨hlimit, hreports, hopen, hfilled, hadopted, hshown⟩
      have hfits : ∀ d : Side, d.sign * (start.toInt + lots []) ≤ limit.toInt := by
        intro d
        cases d <;> simp only [Side.sign, lots, List.map_nil, List.sum_nil] <;> omega
      refine ⟨hreports.inv, hreports.once, fun hne => absurd hreports.2.2.2.1 hne, hlimit, ?_,
        fun hne => absurd hreports.2.2.2.1 hne, ⟨fun l hl d => ?_, fun d => ?_⟩, trivial, ?_, ?_⟩
      · rw [hfilled]
        exact hreports.2.2.2.2.1
      · rw [hfilled, List.suffix_nil] at hl
        exact hl ▸ hfits d
      · rw [Desk.holding, hfilled, hopen]
        exact (Int.add_zero _).trans_le (hfits d)
      · exact fun h => absurd (hadopted.symm.trans h) Bool.false_ne_true
      · exact fun h => absurd (hshown.symm.trans h) Bool.false_ne_true)
    (fun t m h hI hnone => hI.internal hnone)
    (fun t m h x hI hx hp => hI.access hx hp.2)
    (fun t m h x h' hI hx => hI.act hx.1)
    (fun t m h h' r _ hreset => hreset.elim) hr
  refine ⟨fun hadopted => ?_, fun hshown => hbounds _ (hI.shown hshown)⟩
  rw [hsim.position]
  exact hbounds _ (hI.position_le (hI.adopted hadopted))

/-! ### Concrete runs -/

/-- What the host can be told to do. -/
inductive DeskCommand
  | report (d : Side)
  | store
  | poke (a : Addr) (v : Word)

/-- What it does then, if it can. -/
def DeskCommand.perform (h : Desk) : DeskCommand → Option (Option (Access Addr Word) × Desk)
  | .report d =>
    if 0 < h.outstanding d ∧ h.reports.todo = [] ∧ h.reports.declared = true ∧
        h.reports.pending = false ∧ h.reports.stage = .idle then
      some (none, { h with reports := h.reports.report d.lot, current := d })
    else none
  | .store =>
    match h.reports.todo with
    | [] => none
    | (a, v) :: rest => if inputBase ≤ a then some (some (.store a v), h.stored rest) else none
  | .poke a v =>
    if (inputBase ≤ a ∧ a < outputBase) ∧
        a ∉ [fillSeq, fillSide, fillQty, cfgRestart, cfgPosition, cfgMaxPos] then
      some (some (.store a v), h)
    else none

/-- Scripts for the desk. -/
def deskDirector (s : Strategy) : Director s (desk s) DeskCommand where
  perform k h _ := k.perform h
  ok _ := true
  perform_act {k h m x h'} hk := by
    cases k with
    | report d =>
      simp only [DeskCommand.perform] at hk
      split_ifs at hk with hcan
      cases hk
      exact .report d hcan.1 hcan.2.1 hcan.2.2.1 hcan.2.2.2
    | store =>
      simp only [DeskCommand.perform] at hk
      split at hk
      · cases hk
      · next a v rest htodo =>
        split_ifs at hk with hin
        cases hk
        exact .store htodo hin
    | poke a v =>
      simp only [DeskCommand.perform] at hk
      split_ifs at hk with hcan
      cases hk
      exact .other a v hcan.1 hcan.2
  ok_permitted _ _ _ := trivial

/-- The stores of a quote, as commands. -/
def DeskCommand.quote (seq bid ask : Word) : List (Line DeskCommand) :=
  [.host (.poke tickSeq (seq - 1)), .host (.poke Fmma.bid bid), .host (.poke Fmma.ask ask),
    .host (.poke tickSeq seq)]

/-- A report, store by store. -/
def DeskCommand.fill (d : Side) : List (Line DeskCommand) :=
  [.host (.report d), .host .store, .host .store, .host .store]

/-- A desk that has done nothing. -/
def Desk.cold : Desk := ⟨.cold, fun _ => 0, .buy, [], false, false⟩

/-- A RAM with the limit at one lot and trading enabled. -/
def oneLot (a : Addr) : Word := if a = cfgMaxPos then 1 else if a = cfgEnable then 1 else 0

theorem Desk.starts_cold (s : Strategy) : Desk.Starts 1 0 (s.install oneLot) Desk.cold := by
  simp [Desk.Starts, Desk.cold, Reporter.Starts, Reporter.cold, oneLot]

/-- One falling quote, one decision, one fill, with the limit at one lot. -/
theorem position_within_limit_one : ∃ (c : Cpu) (h : Desk), h.filled = [.buy] ∧
    (c.mem position).toInt ≤ 1 := by
  obtain ⟨t, c, h, hr, -, hP⟩ := ((deskDirector .trading).restrict
    (Desk.HasRoom .trading 1 0) (fun _ _ _ => True)
    (fun a => decide
      (Strategy.pcOf .trading a.1.1.point = Strategy.pcOf .trading (.signalSeqStore 0) →
      a.2.unapplied (.ofSignal (a.1.2 signal)) = 0))
    fun a ha x _ hplace => .inl (of_decide_eq_true ha hplace)).exists_reachable
    (deskWithin_onlyShared .trading 1 0) (fun _ _ h => h) (Desk.Starts 1 0) (m := oneLot)
    (Desk.starts_cold .trading)
    ([.cpu 11] ++ DeskCommand.quote 2 100 100 ++ [.cpu 20] ++ DeskCommand.quote 4 90 90 ++
      [.cpu 30] ++ DeskCommand.fill .buy ++ [.cpu 20])
    (P := fun a => a.2.filled = [.buy] ∧ a.2.shown = true ∧ a.1.2 position = 1)
    (by decide +kernel)
  obtain ⟨hfilled, hshown, -⟩ := of_decide_eq_true hP
  exact ⟨c, h, hfilled, ((position_within_limit .trading (by decide) hr).2 hshown).2⟩

/-- **The limit overrun.** With the limit at one lot, two falling quotes are decided on before the
first decision is filled; both fills make two lots. -/
theorem not_position_within_limit : ¬∀ (c : Cpu) (h : Desk),
    cpuMachine.Reachable (desk .trading) (boot .trading (Desk.Starts 1 0)) (c, h) →
      h.shown = true → (c.mem position).toInt ≤ 1 := by
  intro hall
  obtain ⟨t, c, h, hr, -, hP⟩ := (deskDirector .trading).exists_reachable
    (desk_onlyShared .trading) (fun _ _ h => h) (Desk.Starts 1 0) (m := oneLot)
    (Desk.starts_cold .trading)
    ([.cpu 11] ++ DeskCommand.quote 2 100 100 ++ [.cpu 20] ++ DeskCommand.quote 4 90 90 ++
      [.cpu 30] ++ DeskCommand.quote 6 80 80 ++ [.cpu 30] ++ DeskCommand.fill .buy ++ [.cpu 20] ++
      DeskCommand.fill .buy ++ [.cpu 20])
    (P := fun a => a.2.shown = true ∧ a.1.2 position = 2) (by decide +kernel)
  obtain ⟨hshown, htwo⟩ := of_decide_eq_true hP
  change c.mem position = 2 at htwo
  have hle := hall c h hr hshown
  rw [htwo] at hle
  exact absurd hle (by decide)

end Fmma
