import Fmma.Board.Quoting
import Fmma.Strategy.Runs

/-!
# The kill switch

`fmma_fpga_set_enabled` stores `CFG_ENABLE`, which a program loads once for each decision, before
it looks at the position limit. While the word is 0, a decision that was past that load is
published, and no other; every later quote that crosses the decision condition is counted in
`REJECTS`, whatever the inventory is.

The record has three parts. The `Consumer` and the `Quoting` do what the programs are to do with
quotes and fills, computed from what they load and without a look at `CFG_ENABLE`: a program that is
switched off advances as one that is not. Whether a quote crosses is said of them, not of the loads
that follow it. The `Publisher` is that of the snapshot theorem, with its publishes numbered. The
rest counts, from the store of 0 on, the signals that are published and the quotes that cross.
-/

namespace Fmma

/-! ### The record of the switch -/

/-- The words of the market-data block. -/
def marketData : List Addr := [tickSeq, bid, ask, bidSize, askSize]

/-- A quote that `trading.asm` is to compare with the band: the anchor it has found, and its doubled
mid. -/
structure Due where
  anchor : Word
  sum : Word
  deriving DecidableEq

namespace Due

/-- The quote has left the band `anchor ± 2*CFG_THRESH`. -/
def Outside (q : Due) (thresh : Word) : Prop :=
  q.sum.toInt < (q.anchor - (thresh + thresh)).toInt ∨
    (q.anchor + (thresh + thresh)).toInt < q.sum.toInt

instance (q : Due) (thresh : Word) : Decidable (q.Outside thresh) := instDecidableOr

/-- What is to be compared of a quote that has been consumed: `trading.asm` compares the two-sided
ones that find an anchor. -/
def ofQuote (s : Strategy) (anchor bid ask : Word) : Option Due :=
  if s = .trading ∧ bid ≠ 0 ∧ ask ≠ 0 ∧ anchor ≠ 0 then some ⟨anchor, bid + ask⟩ else none

end Due

/-- The host with a switch, and the record of the run. -/
structure Switch where
  pub : Publisher
  /-- How many publishes have begun. -/
  begun : Nat
  eaten : Consumer
  /-- The quotes of `market_maker.asm`. -/
  quoting : Quoting
  /-- The quote `trading.asm` has consumed, until it is compared with the band. -/
  due : Option Due
  /-- The publish the last consumed tick is of, and its number; the words found in the RAM have
  number 0. -/
  source : Tick
  index : Nat
  /-- `CFG_ENABLE` has been stored 0, and not another value since. -/
  off : Bool
  /-- How many publishes had begun then. -/
  begunOff : Nat
  /-- How many decisions have been published since. -/
  signals : Nat
  /-- How many quotes have crossed the decision condition since, after the last `INIT`, and
  `REJECTS` before the first of them. -/
  crossings : Nat
  first : Word
  /-- How many accesses the program has made since it last stored `HEARTBEAT`. -/
  pass : Nat

namespace Switch

/-- `CFG_ENABLE` is stored. -/
def setEnable (h : Switch) (v : Word) : Switch :=
  if v = 0 then
    if h.off = true then h
    else { h with
      off := true
      begunOff := h.begun
      signals := 0
      crossings := 0 }
  else { h with off := false }

/-- What the host does: it publishes, it switches, and it stores other words of the input block
and `FW_VERSION`. -/
inductive Act (h : Switch) (m : Addr → Word) : Option (Access Addr Word) → Switch → Prop
  | publish (bid ask bidSize askSize : Word) (hidle : h.pub.todo = []) :
    Act h m none { h with
      pub := h.pub.publish bid ask bidSize askSize
      begun := h.begun + 1 }
  | store {a : Addr} {v : Word} {rest : List (Addr × Word)} (htodo : h.pub.todo = (a, v) :: rest)
    (hin : a ∈ marketData) : Act h m (some (.store a v)) { h with pub := h.pub.stored rest }
  | enable (v : Word) : Act h m (some (.store cfgEnable v)) (h.setEnable v)
  | other (a : Addr) (v : Word) (hin : (inputBase ≤ a ∧ a < outputBase) ∨ a = fwVersion)
    (hne : a ≠ cfgEnable ∧ a ∉ marketData) : Act h m (some (.store a v)) h

/-- The second reading of `TICK_SEQ` finds the counter of the first: the tick is consumed. -/
abbrev Commits (s : Strategy) (h : Switch) (i : Addr) (x : Access Addr Word) (m : Addr → Word) :
    Prop :=
  x = .load tickSeq ∧ i = s.secondRead ∧ m tickSeq = h.eaten.reading.seq

/-- **The quote crosses the decision condition.** In `trading.asm` the quote that is due is compared
with the band, of the threshold loaded then. In `market_maker.asm` a two-sided quote is consumed,
and the market is not inside the resting quotes. -/
def Crosses (s : Strategy) (h : Switch) (i : Addr) (x : Access Addr Word) (m : Addr → Word) :
    Prop :=
  match s with
  | .trading => x = .load cfgThresh ∧ ∃ q ∈ h.due, q.Outside (m cfgThresh)
  | .marketMaker => h.Commits .marketMaker i x m ∧ h.eaten.reading.bid ≠ 0 ∧
      h.eaten.reading.ask ≠ 0 ∧
        ¬Quoting.Inside h.quoting.resting h.eaten.reading.bid h.eaten.reading.ask

instance (s : Strategy) (h : Switch) (i : Addr) (x : Access Addr Word) (m : Addr → Word) :
    Decidable (h.Crosses s i x m) :=
  match s with
  | .trading => inferInstanceAs (Decidable (_ ∧ _))
  | .marketMaker => inferInstanceAs (Decidable (_ ∧ _))

/-- A program's own store of `SIGNAL_SEQ`, not that of `INIT`. -/
def emits (s : Strategy) (i : Addr) : Access Addr Word → Bool
  | .load _ => false
  | .store a _ => a == signalSeq && i == s.pcOf (.signalSeqStore 0)

/-- A store of `HEARTBEAT`. -/
def beats : Access Addr Word → Bool
  | .load _ => false
  | .store a _ => a == heartbeat

/-- What an access of the program says. -/
def observe (s : Strategy) (h : Switch) (i : Addr) (x : Access Addr Word) (m : Addr → Word) :
    Switch where
  pub := (publisher s).observe h.pub i x m
  begun := h.begun
  eaten := h.eaten.observe s i x m
  quoting := h.quoting.observe i x m
  due :=
    if h.Commits s i x m then
      Due.ofQuote s h.eaten.anchor h.eaten.reading.bid h.eaten.reading.ask
    else if x = .load cfgThresh ∨ x = .load cfgPosition then none
    else h.due
  source := if h.Commits s i x m then h.pub.latest else h.source
  index := if h.Commits s i x m then h.pub.published.length - 1 else h.index
  off := h.off
  begunOff := h.begunOff
  signals := if emits s i x && h.off then h.signals + 1 else h.signals
  crossings :=
    if x = .load cfgPosition then 0
    else if h.Crosses s i x m ∧ h.off = true then h.crossings + 1
    else h.crossings
  first :=
    if h.Crosses s i x m ∧ h.off = true ∧ h.crossings = 0 then m rejects else h.first
  pass := if beats x then 0 else h.pass + 1

/-- The program is in `INIT`, and the host has just taken over; the words found in the RAM count
as a publish. -/
def Starts (m : Addr → Word) (h : Switch) : Prop :=
  h.pub.Starts m ∧ h.begun = 0 ∧ h.source = h.pub.latest ∧ h.index = 0 ∧ h.off = false ∧ h.pass = 0

end Switch

namespace Switch

/-! ### The invariant -/

/-- Publishes are completed in order, at most one is under way, and the last tick's is known. -/
structure Numbered (h : Switch) : Prop where
  begun : h.pub.published.length + (if h.pub.todo = [] then 0 else 1) = h.begun + 1
  latest : h.pub.published.head? = some h.pub.latest
  source : h.pub.published.reverse[h.index]? = some h.source
  index : h.index ≤ h.begun

/-- A decision is about the tick of a publish, and carries its number. -/
def Sourced (t : Thread) (m : Addr → Word) (h : Switch) : Prop :=
  match t.point with
  | .commit seq => h.source.seq = seq
  | .thresh _ | .enable _ | .maxPos _ | .signal _ | .signalTick => h.source.seq = t.regs.tick
  | .status | .signalSeq | .signalSeqStore _ => m signalTick = h.source.seq
  | _ => True

/-- What the program has still to compare, point by point. -/
def Owes (s : Strategy) (t : Thread) (h : Switch) : Prop :=
  match t.point with
  | .initPosition => True
  | .commit _ => h.due = Due.ofQuote s t.regs.anchor t.regs.bid t.regs.ask
  | .thresh sum => h.due = some ⟨t.regs.anchor, sum⟩
  | _ => h.due = none

/-- `REJECTS` at the next `LOOP`: one more for each quote that has crossed. -/
def count (h : Switch) : Word := h.first + BitVec.ofNat 32 h.crossings

/-- The status of a decision suppressed by the switch. -/
def disabled : Word := statusDisabled + statusRunning

/-- Every quote that has crossed has been rejected. -/
def Settled (m : Addr → Word) (h : Switch) : Prop :=
  1 ≤ h.crossings → m status = disabled ∧ m rejects = h.count

/-- All of them but the last. -/
def Unsettled (m : Addr → Word) (h : Switch) : Prop := 1 ≤ h.crossings → m rejects + 1 = h.count

/-- The market of a two-sided quote is not inside the quotes of `market_maker.asm`. -/
def Touched (s : Strategy) (r : Regs) : Prop :=
  s = .marketMaker ∧ r.bid ≠ 0 ∧ r.ask ≠ 0 ∧ ¬Quoting.Inside ⟨r.anchor, r.ask2⟩ r.bid r.ask

/-- **What the program does while it is switched off**, point by point. A decision past the load
of `CFG_ENABLE` was there when the switch was thrown. -/
def Gate (s : Strategy) (t : Thread) (m : Addr → Word) (h : Switch) : Prop :=
  match t.point with
  | .initPosition => True
  | .initFill | .clear _ | .setStatus | .setVersion => h.crossings = 0
  | .maxPos _ | .signal _ | .signalTick | .status | .signalSeq | .signalSeqStore _ =>
    h.signals = 0 ∧ h.crossings = 0 ∧ h.index ≤ h.begunOff
  | .commit _ => (Touched s t.regs → h.Unsettled m) ∧ (¬Touched s t.regs → h.Settled m)
  | .enable _ => h.Unsettled m
  | .rejectStatus v => 1 ≤ h.crossings → v = disabled ∧ m rejects + 1 = h.count
  | .rejects => 1 ≤ h.crossings → m status = disabled ∧ m rejects + 1 = h.count
  | .rejectsStore v => 1 ≤ h.crossings → m status = disabled ∧ v = h.count
  | _ => h.Settled m

/-- The invariant of the board. -/
structure Inv (s : Strategy) (t : Thread) (m : Addr → Word) (h : Switch) : Prop where
  writing : h.pub.Writing m
  numbered : h.Numbered
  eaten : h.eaten.Body s t
  quotes : s = .marketMaker → h.quoting.Sound t
  owes : h.Owes s t
  sourced : h.Sourced t m
  off : h.off = true → m cfgEnable = 0 ∧ h.signals ≤ 1 ∧ h.Gate s t m
  pass : h.pass + t.point.toLoop ≤ 19 ∨ t.point = .beat ∧ h.pass ≤ 19

variable {s : Strategy} {t : Thread} {m m' : Addr → Word} {h h' : Switch} {r : Regs}
  {x : Option (Access Addr Word)} {y : Access Addr Word}

/-- `INIT` begins with the invariant. -/
theorem Starts.inv (hs : h.Starts m) : Inv s (Thread.initial s r) m h := by
  obtain ⟨hpub, hbegun, hsource, hindex, hoff, hpass⟩ := hs
  obtain ⟨htodo, hnext, hlatest, hlist⟩ := hpub
  refine ⟨⟨.idle htodo ?_ ?_ ?_ ?_, fun hne => absurd htodo hne, ?_, ?_⟩, ⟨?_, ?_, ?_, ?_⟩,
    ⟨rfl, rfl, rfl⟩, ?_, trivial, trivial, fun hon => ?_, .inl ?_⟩
  · rw [hlatest]
  · rw [hnext, hlatest]
  · rw [hlatest]
  · rw [hlatest]
  · rw [if_pos htodo, hnext, hlatest]
  · rw [hlist]
    exact List.mem_singleton_self _
  · rw [hlist, if_pos htodo, hbegun]
    rfl
  · rw [hlist]
    rfl
  · rw [hlist, hindex, hsource]
    rfl
  · rw [hindex]
    exact Nat.zero_le _
  · rintro rfl
    exact Quoting.sound_initial
  · rw [hoff] at hon
    cases hon
  · rw [hpass]
    exact of_decide_eq_true rfl

/-! ### The host's steps -/

/-- The words the switch is about, apart from `CFG_ENABLE`. -/
def watched : List Addr := [signalTick, status, rejects]

/-- The invariant of the decisions is about these words. -/
theorem Gate.congr (hg : h.Gate s t m) (hm : ∀ a ∈ watched, m' a = m a) : h.Gate s t m' := by
  have hstatus := hm status (by decide)
  have hrejects := hm rejects (by decide)
  obtain ⟨point, r⟩ := t
  cases point
  all_goals
    simp only [Gate, Settled, Unsettled, hstatus, hrejects] at hg ⊢
    try exact hg

theorem Sourced.congr (hs : h.Sourced t m) (hm : ∀ a ∈ watched, m' a = m a) :
    h.Sourced t m' := by
  have htick := hm signalTick (by decide)
  obtain ⟨point, r⟩ := t
  cases point
  all_goals
    simp only [Sourced, htick] at hs ⊢
    try exact hs

/-- The words of a publish are in the input block, and the switch is none of them. -/
theorem marketData_spec {a : Addr} (ha : a ∈ marketData) :
    inputBase ≤ a ∧ a < outputBase ∧ a ≠ cfgEnable := by
  simp only [marketData, List.mem_cons, List.not_mem_nil, or_false] at ha
  rcases ha with rfl | rfl | rfl | rfl | rfl
  all_goals decide

/-- The words of a decision are in the output block. -/
theorem outputBase_le_watched {a : Addr} (ha : a ∈ watched) : outputBase ≤ a := by
  simp only [watched, List.mem_cons, List.not_mem_nil, or_false] at ha
  rcases ha with rfl | rfl | rfl
  all_goals decide

/-- To the market data, the host is a publisher. -/
theorem Act.pub (hx : Act h m x h') : h.pub.Act m x h'.pub := by
  cases hx with
  | publish b a v w hidle => exact .publish b a v w hidle
  | @store a v rest htodo hin =>
    exact .store htodo (marketData_spec hin).1
  | enable v =>
    have hpub : (h.setEnable v).pub = h.pub := by
      simp only [setEnable]
      split_ifs <;> rfl
    rw [hpub]
    exact .other cfgEnable v (by decide) (by decide)
  | other a v hin hne =>
    refine .other a v ?_ ⟨?_, ?_, ?_⟩
    · rcases hin with ⟨hlo, -⟩ | rfl
      · exact hlo
      · decide
    all_goals
      rintro rfl
      exact hne.2 (by decide)

/-- **Frame.** The host stores to no word of a decision. -/
theorem Act.frame (hx : Act h m x h') : ∀ a ∈ watched, Access.applyOpt m x a = m a := by
  intro b hb
  have hne : ∀ a < outputBase, b ≠ a := by
    rintro a hlt rfl
    exact absurd hlt (BitVec.not_lt.mpr (outputBase_le_watched hb))
  cases hx with
  | publish => rfl
  | @store a v rest htodo hin =>
    exact Function.update_of_ne (hne a (marketData_spec hin).2.1) v m
  | enable v => exact Function.update_of_ne (hne cfgEnable (by decide)) v m
  | other a v hin _ =>
    have hba : b ≠ a := by
      rcases hin with ⟨-, hlt⟩ | rfl
      · exact hne a hlt
      · rintro rfl
        exact absurd hb (by decide)
    exact Function.update_of_ne hba v m

/-- Publishes stay numbered. -/
theorem Numbered.act (hn : h.Numbered) (hx : Act h m x h') : h'.Numbered := by
  obtain ⟨hbegun, hlatest, hsource, hindex⟩ := hn
  cases hx with
  | publish b a v w hidle =>
    rw [if_pos hidle] at hbegun
    refine ⟨?_, hlatest, hsource, Nat.le_succ_of_le hindex⟩
    change h.pub.published.length + 1 = h.begun + 1 + 1
    omega
  | @store a v rest htodo hin =>
    rw [htodo, if_neg (List.cons_ne_nil _ _)] at hbegun
    cases rest with
    | nil =>
      refine ⟨hbegun, rfl, ?_, hindex⟩
      change (h.pub.current :: h.pub.published).reverse[h.index]? = some h.source
      obtain ⟨hlt, -⟩ := List.getElem?_eq_some_iff.mp hsource
      rw [List.reverse_cons, List.getElem?_append_left hlt]
      exact hsource
    | cons q rest => exact ⟨hbegun, hlatest, hsource, hindex⟩
  | enable v =>
    simp only [setEnable]
    split_ifs
    all_goals exact ⟨hbegun, hlatest, hsource, hindex⟩
  | other a v hin hne => exact ⟨hbegun, hlatest, hsource, hindex⟩

/-- The switch is thrown. -/
theorem setEnable_zero (hoff : ¬h.off = true) : h.setEnable 0 = { h with
    off := true
    begunOff := h.begun
    signals := 0
    crossings := 0 } := by
  simp only [setEnable, if_true, if_neg hoff]

/-- When the switch is thrown, a decision past the load of `CFG_ENABLE` is about an earlier
publish, and none has been taken since. -/
theorem Gate.throw (hn : h.Numbered) (hoff : ¬h.off = true) :
    (h.setEnable 0).signals = 0 ∧ (h.setEnable 0).Gate s t m := by
  rw [setEnable_zero hoff]
  refine ⟨rfl, ?_⟩
  obtain ⟨point, r⟩ := t
  cases point
  all_goals first
    | exact trivial
    | exact rfl
    | exact ⟨rfl, rfl, hn.index⟩
    | exact fun hpos => absurd hpos (Nat.not_succ_le_zero 0)
    | exact ⟨fun _ hpos => absurd hpos (Nat.not_succ_le_zero 0),
        fun _ hpos => absurd hpos (Nat.not_succ_le_zero 0)⟩

/-- Everything the host does keeps the invariant. -/
theorem Inv.act (hI : Inv s t m h) (hx : Act h m x h') : Inv s t (Access.applyOpt m x) h' := by
  have hframe := hx.frame
  have hwriting := hI.writing.act hx.pub
  have hnumbered := hI.numbered.act hx
  cases hx with
  | publish b a v w hidle =>
    exact ⟨hwriting, hnumbered, hI.eaten, hI.quotes, hI.owes, hI.sourced, hI.off, hI.pass⟩
  | @store a v rest htodo hin =>
    refine ⟨hwriting, hnumbered, hI.eaten, hI.quotes, hI.owes, hI.sourced.congr hframe,
      fun hoff => ?_, hI.pass⟩
    obtain ⟨hzero, hsignals, hgate⟩ := hI.off hoff
    have hkeep : Function.update m a v cfgEnable = m cfgEnable :=
      Function.update_of_ne (marketData_spec hin).2.2.symm v m
    exact ⟨hkeep.trans hzero, hsignals, hgate.congr hframe⟩
  | enable v =>
    by_cases hv : v = 0
    · subst hv
      by_cases hoff : h.off = true
      · have hset : h.setEnable 0 = h := by
          simp only [setEnable, if_true, if_pos hoff]
        rw [hset] at hwriting hnumbered ⊢
        refine ⟨hwriting, hnumbered, hI.eaten, hI.quotes, hI.owes, hI.sourced.congr hframe,
          fun _ => ?_, hI.pass⟩
        obtain ⟨-, hsignals, hgate⟩ := hI.off hoff
        exact ⟨Function.update_self cfgEnable 0 m, hsignals, hgate.congr hframe⟩
      · obtain ⟨hsignals, hgate⟩ := Gate.throw (t := t) (m := m) hI.numbered hoff
        have hset := setEnable_zero hoff
        refine ⟨hwriting, hnumbered, ?_, ?_, ?_, ?_, fun _ => ?_, ?_⟩
        · rw [hset]
          exact hI.eaten
        · rw [hset]
          exact hI.quotes
        · rw [hset]
          exact hI.owes
        · rw [hset]
          exact hI.sourced.congr hframe
        · exact ⟨Function.update_self cfgEnable 0 m, hsignals ▸ Nat.zero_le 1,
            hgate.congr hframe⟩
        · rw [hset]
          exact hI.pass
    · have hset : h.setEnable v = { h with off := false } := by
        simp only [setEnable, if_neg hv]
      rw [hset] at hwriting hnumbered ⊢
      exact ⟨hwriting, hnumbered, hI.eaten, hI.quotes, hI.owes, hI.sourced.congr hframe,
        by rintro ⟨⟩, hI.pass⟩
  | other a v hin hne =>
    refine ⟨hwriting, hnumbered, hI.eaten, hI.quotes, hI.owes, hI.sourced.congr hframe,
      fun hoff => ?_, hI.pass⟩
    obtain ⟨hzero, hsignals, hgate⟩ := hI.off hoff
    have hkeep : Function.update m a v cfgEnable = m cfgEnable :=
      Function.update_of_ne (Ne.symm hne.1) v m
    exact ⟨hkeep.trans hzero, hsignals, hgate.congr hframe⟩

/-! ### The program's steps -/

/-- Publishes stay numbered, and a consumed tick is the last completed one. -/
theorem Numbered.access (hn : h.Numbered) (i : Addr) (y : Access Addr Word) :
    (h.observe s i y m).Numbered := by
  obtain ⟨hbegun, hlatest, hsource, hindex⟩ := hn
  obtain ⟨hpublished, htodo, hlast⟩ : (h.observe s i y m).pub.published = h.pub.published ∧
      (h.observe s i y m).pub.todo = h.pub.todo ∧
        (h.observe s i y m).pub.latest = h.pub.latest := by
    simp only [observe, publisher]
    split_ifs <;> exact ⟨rfl, rfl, rfl⟩
  refine ⟨by rw [hpublished, htodo]; exact hbegun, by rw [hpublished, hlast]; exact hlatest, ?_, ?_⟩
  · rw [hpublished]
    by_cases hc : h.Commits s i y m
    · have hlen : (h.observe s i y m).index = h.pub.published.length - 1 := if_pos hc
      have hsrc : (h.observe s i y m).source = h.pub.latest := if_pos hc
      rw [hlen, hsrc, ← hlatest, ← List.length_reverse, ← List.getLast?_eq_getElem?,
        List.getLast?_reverse]
    · have hlen : (h.observe s i y m).index = h.index := if_neg hc
      have hsrc : (h.observe s i y m).source = h.source := if_neg hc
      rw [hlen, hsrc]
      exact hsource
  · by_cases hc : h.Commits s i y m
    · have hlen : (h.observe s i y m).index = h.pub.published.length - 1 := if_pos hc
      rw [hlen]
      change h.pub.published.length - 1 ≤ h.begun
      split_ifs at hbegun <;> omega
    · have hlen : (h.observe s i y m).index = h.index := if_neg hc
      rw [hlen]
      exact hindex

/-- Only the second reading of `TICK_SEQ` consumes a tick. -/
theorem not_commits (hp : ∀ seq, t.point ≠ .tickSeq2 seq) (hy : t.access s = some y) :
    ¬h.Commits s (s.pcOf t.point) y m := by
  rintro ⟨rfl, hi, -⟩
  obtain ⟨point, r⟩ := t
  cases point with
  | tickSeq =>
    have hne : s.firstRead ≠ s.secondRead := by cases s <;> decide
    exact hne hi
  | tickSeq2 seq => exact hp seq rfl
  | _ => cases hy

/-- What the invariant of the decisions is about, apart from the RAM. -/
structure SameTally (h h' : Switch) : Prop where
  signals : h'.signals = h.signals
  crossings : h'.crossings = h.crossings
  first : h'.first = h.first
  index : h'.index = h.index
  begunOff : h'.begunOff = h.begunOff

theorem Gate.tally (hs : h.SameTally h') (hg : h.Gate s t m) : h'.Gate s t m := by
  obtain ⟨hsignals, hcrossings, hfirst, hindex, hbegun⟩ := hs
  have hcount : h'.count = h.count := by rw [count, hfirst, hcrossings, count]
  obtain ⟨point, r⟩ := t
  cases point
  all_goals
    simp only [Gate, Settled, Unsettled, hsignals, hcrossings, hcount, hindex, hbegun] at hg ⊢
    try exact hg

/-! ### Quotes that cross -/

section Crossing

variable {i : Addr}

/-- A quote crosses at a load, and not at that of `CFG_POSITION`. -/
theorem Crosses.access_ne (hc : h.Crosses s i y m) : y ≠ .load cfgPosition := by
  rintro rfl
  cases s with
  | trading => exact absurd hc.1 (by decide)
  | marketMaker => exact absurd hc.1.1 (by decide)

/-- A quote that crosses is counted. -/
theorem crossings_of_crosses (hc : h.Crosses s i y m) (hon : h.off = true) :
    (h.observe s i y m).crossings = h.crossings + 1 := by
  simp only [observe, hc.access_ne, hc, hon, if_false, and_self, if_true]

/-- It is to be rejected once more than the ones before. -/
theorem Settled.crosses (hs : h.Settled m) (hc : h.Crosses s i y m) (hon : h.off = true) :
    (h.observe s i y m).Unsettled m := by
  intro _
  rw [count, crossings_of_crosses hc hon]
  by_cases hnone : h.crossings = 0
  · have hfirst : (h.observe s i y m).first = m rejects := if_pos ⟨hc, hon, hnone⟩
    rw [hfirst, hnone]
    rfl
  · have hfirst : (h.observe s i y m).first = h.first := if_neg fun hc' => hnone hc'.2.2
    obtain ⟨-, hrejects⟩ := hs (Nat.one_le_iff_ne_zero.mpr hnone)
    rw [hfirst, hrejects, count, BitVec.ofNat_add, ← BitVec.add_assoc]
    rfl

/-- Without a quote that crosses, the count stays. -/
theorem count_of_not_crosses (hc : ¬h.Crosses s i y m) (hposition : y ≠ .load cfgPosition) :
    (h.observe s i y m).crossings = h.crossings ∧ (h.observe s i y m).first = h.first := by
  simp only [observe, hc, hposition, false_and, if_false, and_self]

theorem Settled.observe (hs : h.Settled m) (hc : ¬h.Crosses s i y m)
    (hposition : y ≠ .load cfgPosition) : (h.observe s i y m).Settled m := by
  obtain ⟨hcrossings, hfirst⟩ := count_of_not_crosses hc hposition
  rw [Settled, count, hcrossings, hfirst]
  exact hs

/-- In `market_maker.asm` a quote crosses as it is consumed. -/
theorem crosses_tickSeq2 {seq : Word} (heaten : h.eaten.Body s ⟨.tickSeq2 seq, r⟩)
    (hquotes : s = .marketMaker → h.quoting.Sound ⟨.tickSeq2 seq, r⟩) :
    h.Crosses s (s.pcOf (.tickSeq2 seq)) (.load tickSeq) m ↔
      m tickSeq = seq ∧ Touched s r := by
  obtain ⟨hreads, hbid, hask⟩ := heaten
  cases s with
  | trading =>
    exact iff_of_false (fun hc => absurd hc.1 (by decide)) fun ht => by cases ht.2.1
  | marketMaker =>
    obtain ⟨hanchor, hask2⟩ := (hquotes rfl).body
    have hresting : h.quoting.resting = ⟨r.anchor, r.ask2⟩ := by
      rw [show r.anchor = _ from hanchor, show r.ask2 = _ from hask2]
    rw [Crosses, hresting, hbid, hask, Touched]
    constructor
    · rintro ⟨⟨-, -, hseq⟩, hcross⟩
      exact ⟨hseq.trans hreads.counter, rfl, hcross⟩
    · rintro ⟨hseq, -, hcross⟩
      exact ⟨⟨rfl, rfl, hseq.trans hreads.counter.symm⟩, hcross⟩

/-- In `trading.asm` a quote crosses as it is compared with the band. -/
theorem crosses_thresh {sum : Word} (howes : h.Owes s ⟨.thresh sum, r⟩)
    (hquotes : s = .marketMaker → h.quoting.Sound ⟨.thresh sum, r⟩) :
    h.Crosses s (s.pcOf (.thresh sum)) (.load cfgThresh) m ↔
      Due.Outside ⟨r.anchor, sum⟩ (m cfgThresh) := by
  have hdue : h.due = some ⟨r.anchor, sum⟩ := howes
  cases s with
  | trading =>
    rw [Crosses, hdue]
    constructor
    · rintro ⟨-, q, hq, hout⟩
      cases hq
      exact hout
    · intro hout
      exact ⟨rfl, _, rfl, hout⟩
  | marketMaker => exact (hquotes rfl).body.elim

/-- The other loads and stores compare no quote. -/
theorem not_crosses (hp₁ : ∀ seq, t.point ≠ .tickSeq2 seq) (hp₂ : ∀ sum, t.point ≠ .thresh sum)
    (hy : t.access s = some y) : ¬h.Crosses s (s.pcOf t.point) y m := by
  cases s with
  | marketMaker => exact fun hc => not_commits hp₁ hy hc.1
  | trading =>
    rintro ⟨rfl, -⟩
    obtain ⟨point, r⟩ := t
    cases point with
    | thresh sum => exact hp₂ sum rfl
    | _ => cases hy

end Crossing

/-- The other accesses of the program count for nothing. -/
theorem sameTally_observe {i : Addr} (hc : ¬h.Commits s i y m) (hcross : ¬h.Crosses s i y m)
    (he : emits s i y = false) (hposition : y ≠ .load cfgPosition) :
    h.SameTally (h.observe s i y m) where
  signals := by simp only [observe, he, Bool.false_and, Bool.false_eq_true, if_false]
  crossings := (count_of_not_crosses hcross hposition).1
  first := (count_of_not_crosses hcross hposition).2
  index := if_neg hc
  begunOff := rfl

/-- The points at which a quote is due. -/
def HasDue (p : Point) : Prop :=
  match p with
  | .commit _ | .thresh _ => True
  | _ => False

/-- Nothing is due at the others. -/
theorem Owes.of_none (hdue : h.due = none) (hp : ¬HasDue t.point) : h.Owes s t := by
  obtain ⟨point, r⟩ := t
  cases point with
  | commit seq => exact absurd trivial hp
  | thresh sum => exact absurd trivial hp
  | initPosition => exact trivial
  | _ => exact hdue

/-- A quote becomes due as it is consumed. -/
theorem not_hasDue_step (hp : ∀ seq, t.point ≠ .tickSeq2 seq) (hy : t.access s = some y) :
    ¬HasDue (t.step s m).point := by
  obtain ⟨point, r⟩ := t
  cases point with
  | tickSeq2 seq => exact absurd rfl (hp seq)
  | clear i =>
    rw [Thread.step_store rfl]
    simp only [Thread.resume]
    split_ifs <;> exact id
  | thresh sum =>
    rw [Thread.step_load rfl]
    simp only [Thread.resume, Strategy.bandTest]
    split_ifs <;> exact id
  | restart | fillSeq | tickSeq | enable side | maxPos side =>
    rw [Thread.step_load rfl]
    simp only [Thread.resume]
    split_ifs <;> exact id
  | _ => first
    | (cases hy; done)
    | exact id

/-- It is due until it is compared. -/
theorem due_access (ho : h.Owes s t) (hp : ∀ seq, t.point ≠ .tickSeq2 seq)
    (hy : t.access s = some y) : (h.observe s (s.pcOf t.point) y m).due = none := by
  have hkeep : (h.observe s (s.pcOf t.point) y m).due =
      if y = .load cfgThresh ∨ y = .load cfgPosition then none else h.due :=
    if_neg (not_commits hp hy)
  rw [hkeep]
  obtain ⟨point, r⟩ := t
  cases point with
  | initPosition =>
    cases hy
    exact if_pos (.inr rfl)
  | thresh sum =>
    cases hy
    exact if_pos (.inl rfl)
  | commit seq => cases hy
  | _ =>
    have hnone : h.due = none := ho
    rw [hnone, ite_self]

/-- Decisions stay about the tick they were taken on. -/
theorem Sourced.access (hI : Inv s t m h) (hy : t.access s = some y) :
    (h.observe s (s.pcOf t.point) y m).Sourced (t.step s m) (y.apply m) := by
  have hs := hI.sourced
  have heaten := hI.eaten
  by_cases hp : ∃ seq, t.point = .tickSeq2 seq
  · obtain ⟨seq, hp⟩ := hp
    obtain ⟨point, r⟩ := t
    cases hp
    cases hy
    obtain ⟨hreads, -, -⟩ := heaten
    rw [Thread.step_load rfl]
    simp only [Thread.resume]
    split_ifs with hseq
    -- the counter is even and has not moved, so it is that of the latest publish
    · have hc : h.Commits s (s.pcOf (.tickSeq2 seq)) (.load tickSeq) m :=
        ⟨rfl, rfl, hseq.trans hreads.counter.symm⟩
      have hsrc : (h.observe s (s.pcOf (.tickSeq2 seq)) (.load tickSeq) m).source = h.pub.latest :=
        if_pos hc
      change (h.observe s (s.pcOf (.tickSeq2 seq)) (.load tickSeq) m).source.seq = seq
      rw [hsrc, ← (hI.writing.stable (hseq ▸ hreads.even)).1, hseq]
    · exact trivial
  · have hsrc : (h.observe s (s.pcOf t.point) y m).source = h.source :=
      if_neg (not_commits (fun seq heq => hp ⟨seq, heq⟩) hy)
    obtain ⟨point, r⟩ := t
    cases point with
    | tickSeq2 seq => exact absurd ⟨seq, rfl⟩ hp
    | thresh sum =>
      cases hy
      have hs' : (h.observe s (s.pcOf (.thresh sum)) (.load cfgThresh) m).source.seq = r.tick :=
        hsrc ▸ hs
      rw [Thread.step_load rfl]
      simp only [Thread.resume, Strategy.bandTest]
      split_ifs
      · exact hs'
      · exact hs'
      · exact trivial
    | enable side =>
      cases hy
      have hs' : (h.observe s (s.pcOf (.enable side)) (.load cfgEnable) m).source.seq = r.tick :=
        hsrc ▸ hs
      rw [Thread.step_load rfl]
      simp only [Thread.resume]
      split_ifs
      · exact trivial
      · exact hs'
    | maxPos side =>
      cases hy
      have hs' : (h.observe s (s.pcOf (.maxPos side)) (.load cfgMaxPos) m).source.seq = r.tick :=
        hsrc ▸ hs
      rw [Thread.step_load rfl]
      simp only [Thread.resume]
      split_ifs
      · exact hs'
      · exact trivial
    | signal side =>
      cases hy
      change (h.observe s _ _ m).source.seq = r.tick
      rw [hsrc]
      exact hs
    | signalTick =>
      cases hy
      change Function.update m signalTick r.tick signalTick = (h.observe s _ _ m).source.seq
      rw [hsrc, Function.update_self]
      exact hs.symm
    | status =>
      cases hy
      change Function.update m status statusRunning signalTick = (h.observe s _ _ m).source.seq
      rw [hsrc, Function.update_of_ne (by decide)]
      exact hs
    | signalSeq =>
      cases hy
      change m signalTick = (h.observe s _ _ m).source.seq
      rw [hsrc]
      exact hs
    | clear i =>
      cases hy
      rw [Thread.step_store rfl]
      simp only [Thread.resume]
      split_ifs <;> exact trivial
    | restart | fillSeq | tickSeq =>
      cases hy
      rw [Thread.step_load rfl]
      simp only [Thread.resume]
      split_ifs <;> exact trivial
    | _ => first
      | (cases hy; done)
      | (cases hy; exact trivial)

/-- A tick that is considered is still that of its publish. -/
theorem Sourced.consider {seq : Word} (hs : h.Sourced ⟨.commit seq, r⟩ m) :
    h.Sourced (s.consider { r with tick := seq }) m := by
  cases s
  all_goals
    simp only [Strategy.consider, Strategy.setQuotes]
    split_ifs
    all_goals first
      | exact trivial
      | exact hs

/-- A considered tick meets the switch later on, if it has crossed. -/
theorem Gate.consider {seq : Word} (hg : h.Gate s ⟨.commit seq, r⟩ m) :
    h.Gate s (s.consider { r with tick := seq }) m := by
  obtain ⟨htouched, hsettled⟩ := hg
  cases s with
  | trading =>
    have hsettled := hsettled fun ht => by cases ht.1
    simp only [Strategy.consider]
    split_ifs
    all_goals exact hsettled
  | marketMaker =>
    simp only [Strategy.consider, Strategy.setQuotes]
    split_ifs with hbid hask hanchor hsell hbuy
    · exact hsettled fun ht => ht.2.1 hbid
    · exact hsettled fun ht => ht.2.2.1 hask
    · exact hsettled fun ht => ht.2.2.2 (.inl hanchor)
    · exact hsettled fun ht => ht.2.2.2 (.inr ⟨hsell, hbuy⟩)
    · exact htouched ⟨rfl, hbid, hask, not_or.mpr ⟨hanchor, fun hin => hbuy hin.2⟩⟩
    · exact htouched ⟨rfl, hbid, hask, not_or.mpr ⟨hanchor, fun hin => hsell hin.1⟩⟩

/-- A quote that has been consumed is compared, or is not to be. -/
theorem Owes.consider {seq : Word} (ho : h.Owes s ⟨.commit seq, r⟩) :
    h.Owes s (s.consider { r with tick := seq }) := by
  have hdue : h.due = Due.ofQuote s r.anchor r.bid r.ask := ho
  cases s with
  | trading =>
    simp only [Strategy.consider]
    split_ifs with hbid hask hanchor
    · exact hdue.trans (if_neg fun hc => hc.2.1 hbid)
    · exact hdue.trans (if_neg fun hc => hc.2.2.1 hask)
    · exact hdue.trans (if_neg fun hc => hc.2.2.2 hanchor)
    · exact hdue.trans (if_pos ⟨rfl, hbid, hask, hanchor⟩)
  | marketMaker =>
    have hnone : h.due = none := hdue.trans (if_neg fun hc => by cases hc.1)
    simp only [Strategy.consider, Strategy.setQuotes]
    split_ifs <;> exact hnone

/-- The bound on a pass, after a step. -/
theorem pass_step {p q : Point} {n n' : Nat} (h : n + p.toLoop ≤ 19 ∨ p = .beat ∧ n ≤ 19)
    (hp : p ≠ .beat) (hn : n' ≤ n + 1) (hlt : q.toLoop < p.toLoop) :
    n' + q.toLoop ≤ 19 ∨ q = .beat ∧ n' ≤ 19 := by
  rcases h with h | ⟨heq, -⟩
  · exact .inl (by omega)
  · exact absurd heq hp

/-- The steps without an access. -/
theorem Inv.internal (hI : Inv s t m h) (hnone : t.access s = none) : Inv s (t.step s m) m h := by
  obtain ⟨hwriting, hnumbered, heaten, hquotes, howes, hsourced, hoff, hpass⟩ := hI
  refine ⟨hwriting, hnumbered, heaten.internal hnone, ?_, ?_, ?_, fun hon => ?_, ?_⟩
  · rintro rfl
    exact (hquotes rfl).internal hnone
  · rw [Thread.step_none hnone]
    obtain ⟨point, r⟩ := t
    cases point with
    | loop => exact howes
    | addFill b q => exact howes
    | commit seq => exact howes.consider
    | _ => cases hnone
  · rw [Thread.step_none hnone]
    obtain ⟨point, r⟩ := t
    cases point with
    | loop => exact trivial
    | addFill b q => exact trivial
    | commit seq => exact hsourced.consider
    | _ => cases hnone
  · obtain ⟨hzero, hsignals, hgate⟩ := hoff hon
    refine ⟨hzero, hsignals, ?_⟩
    rw [Thread.step_none hnone]
    obtain ⟨point, r⟩ := t
    cases point with
    | loop => exact hgate
    | addFill b q => exact hgate
    | commit seq => exact hgate.consider
    | _ => cases hnone
  · by_cases hp : t.point = .loop
    · refine .inr ⟨?_, ?_⟩
      · rw [Thread.step_none hnone, Thread.resume, hp]
      · rw [hp] at hpass
        rcases hpass with hle | ⟨heq, -⟩
        · exact hle
        · cases heq
    · refine pass_step hpass (fun hb => ?_) (Nat.le_succ h.pass)
        (Thread.resume_toLoop (s := s) hp _)
      rw [Thread.access, hb] at hnone
      cases hnone

/-- The points with an access that counts. -/
def Counts (p : Point) : Prop :=
  match p with
  | .initPosition | .tickSeq2 _ | .thresh _ | .signalSeqStore _ => True
  | _ => False

/-- The accesses at the other points count for nothing. -/
theorem sameTally_access (hp : ¬Counts t.point) (hy : t.access s = some y) :
    h.SameTally (h.observe s (s.pcOf t.point) y m) := by
  have hc : ¬h.Commits s (s.pcOf t.point) y m :=
    not_commits (fun seq heq => hp (by rw [heq]; exact trivial)) hy
  have hcross : ¬h.Crosses s (s.pcOf t.point) y m :=
    not_crosses (fun seq heq => hp (by rw [heq]; exact trivial))
      (fun sum heq => hp (by rw [heq]; exact trivial)) hy
  obtain ⟨point, r⟩ := t
  cases point with
  | clear i =>
    cases hy
    refine sameTally_observe hc hcross ?_ (by rintro ⟨⟩)
    fin_cases i <;> cases s <;> rfl
  | _ => first
    | exact absurd trivial hp
    | (cases hy; done)
    | (cases hy; exact sameTally_observe hc hcross rfl (by decide))
    | (cases hy; exact sameTally_observe hc hcross rfl (by rintro ⟨⟩))

/-- The words of a decision, after a store elsewhere. -/
theorem apply_watched {a : Addr} {v : Word} (ha : a ∉ watched) :
    ∀ b ∈ watched, (Access.store a v : Access Addr Word).apply m b = m b := by
  intro b hb
  have hne : b ≠ a := fun heq => ha (heq ▸ hb)
  exact Function.update_of_ne hne v m

/-- **A quote meets the decision condition** of `market_maker.asm`. -/
theorem Gate.tickSeq2 {seq : Word} (hI : Inv s ⟨.tickSeq2 seq, r⟩ m h)
    (hs : h.Settled m) (hon : h.off = true) :
    (h.observe s (s.pcOf (.tickSeq2 seq)) (.load Fmma.tickSeq) m).Gate s
      (Thread.step s ⟨.tickSeq2 seq, r⟩ m) m := by
  have hcross := crosses_tickSeq2 (m := m) hI.eaten hI.quotes
  have hkeep (hc : ¬(m Fmma.tickSeq = seq ∧ Touched s r)) :
      (h.observe s (s.pcOf (.tickSeq2 seq)) (.load Fmma.tickSeq) m).Settled m :=
    hs.observe (hcross.not.mpr hc) (by decide)
  rw [Thread.step_load rfl]
  simp only [Thread.resume]
  split_ifs with hseq
  · exact ⟨fun ht => hs.crosses (hcross.mpr ⟨hseq, ht⟩) hon, fun ht => hkeep fun hc => ht hc.2⟩
  · exact hkeep fun hc => hseq hc.1

/-- **A quote meets the decision condition** of `trading.asm`. -/
theorem Gate.thresh {sum : Word} (hI : Inv s ⟨.thresh sum, r⟩ m h) (hs : h.Settled m)
    (hon : h.off = true) :
    (h.observe s (s.pcOf (.thresh sum)) (.load cfgThresh) m).Gate s
      (Thread.step s ⟨.thresh sum, r⟩ m) m := by
  have hcross := crosses_thresh (m := m) hI.owes hI.quotes
  rw [Thread.step_load rfl]
  simp only [Thread.resume, Strategy.bandTest]
  split_ifs with hbuy hsell
  · exact hs.crosses (hcross.mpr (.inl hbuy)) hon
  · exact hs.crosses (hcross.mpr (.inr hsell)) hon
  · exact hs.observe (hcross.not.mpr (not_or.mpr ⟨hbuy, hsell⟩)) (by decide)

/-- A decision that meets the switch is turned away. -/
theorem Gate.enable {side : Side} (hg : h.Gate s ⟨.enable side, r⟩ m)
    (hzero : m cfgEnable = 0) : h.Gate s (Thread.step s ⟨.enable side, r⟩ m) m := by
  have hstep : Thread.step s ⟨.enable side, r⟩ m = ⟨.rejectStatus disabled, r⟩ := by
    rw [Thread.step_load rfl]
    simp only [Thread.resume, hzero, if_true]
    rfl
  rw [hstep]
  exact fun hpos => ⟨rfl, hg hpos⟩

/-- **The accesses of the program while it is switched off.** -/
theorem Gate.access (hI : Inv s t m h) (hon : h.off = true) (hy : t.access s = some y) :
    (h.observe s (s.pcOf t.point) y m).signals ≤ 1 ∧
      (h.observe s (s.pcOf t.point) y m).Gate s (t.step s m) (y.apply m) := by
  obtain ⟨hzero, hsignals, hg⟩ := hI.off hon
  by_cases hp : Counts t.point
  · obtain ⟨point, r⟩ := t
    cases point with
    | initPosition =>
      cases hy
      exact ⟨hsignals, rfl⟩
    | tickSeq2 seq =>
      cases hy
      exact ⟨hsignals, .tickSeq2 hI hg hon⟩
    | thresh sum =>
      cases hy
      exact ⟨hsignals, .thresh hI hg hon⟩
    | signalSeqStore v =>
      -- the one signal that was past the switch when it went off
      cases hy
      obtain ⟨hsignals0, hcrossings, -⟩ := hg
      have hemit : emits s (s.pcOf (.signalSeqStore v)) (.store signalSeq v) = true :=
        beq_self_eq_true (s.pcOf (.signalSeqStore 0))
      have hone : (h.observe s (s.pcOf (.signalSeqStore v)) (.store signalSeq v) m).signals =
          h.signals + 1 := if_pos (by rw [hemit, hon]; rfl)
      refine ⟨by rw [hone, hsignals0], fun hpos => absurd hpos ?_⟩
      have hcross := not_crosses (t := ⟨.signalSeqStore v, r⟩) (s := s) (h := h) (m := m)
        (by rintro seq ⟨⟩) (by rintro sum ⟨⟩) rfl
      rw [(count_of_not_crosses hcross (by rintro ⟨⟩)).1, hcrossings]
      exact Nat.not_succ_le_zero 0
    | _ => exact hp.elim
  · have htally := sameTally_access (h := h) (m := m) hp hy
    refine ⟨htally.signals ▸ hsignals, Gate.tally htally ?_⟩
    obtain ⟨point, r⟩ := t
    cases point with
    | initPosition => exact absurd trivial hp
    | tickSeq2 seq => exact absurd trivial hp
    | thresh sum => exact absurd trivial hp
    | signalSeqStore v => exact absurd trivial hp
    | enable side =>
      cases hy
      exact hg.enable hzero
    | setVersion =>
      cases hy
      refine fun hpos => absurd hpos ?_
      have hcrossings : h.crossings = 0 := hg
      rw [hcrossings]
      exact Nat.not_succ_le_zero 0
    | clear i =>
      cases hy
      rw [Thread.step_store rfl]
      simp only [Thread.resume]
      split_ifs <;> exact hg
    | restart | fillSeq | tickSeq =>
      cases hy
      rw [Thread.step_load rfl]
      simp only [Thread.resume]
      split_ifs <;> exact hg
    | beat | storePosition | quoteBid | quoteAsk =>
      cases hy
      exact Gate.congr (m := m) hg (apply_watched (by decide))
    | maxPos side =>
      cases hy
      rw [Thread.step_load rfl]
      simp only [Thread.resume]
      split_ifs
      · exact hg
      · refine fun hpos => absurd hpos ?_
        rw [hg.2.1]
        exact Nat.not_succ_le_zero 0
    | rejectStatus v =>
      -- a crossing has been turned away, and is counted next
      cases hy
      intro hpos
      obtain ⟨rfl, hrejects⟩ := hg hpos
      have hstatus : Function.update m status disabled status = disabled :=
        Function.update_self status disabled m
      have hkeep : Function.update m status disabled rejects = m rejects :=
        Function.update_of_ne (by decide) _ m
      exact ⟨hstatus, (congrArg (· + 1) hkeep).trans hrejects⟩
    | rejects =>
      cases hy
      exact hg
    | rejectsStore v =>
      cases hy
      intro hpos
      obtain ⟨hstatus, rfl⟩ := hg hpos
      have hkeep : Function.update m rejects h.count status = m status :=
        Function.update_of_ne (by decide) _ m
      have hself : Function.update m rejects h.count rejects = h.count :=
        Function.update_self rejects h.count m
      exact ⟨hkeep.trans hstatus, hself⟩
    | _ => first
      | (cases hy; done)
      | (cases hy; exact hg)
      | (cases hy; exact trivial)

/-- What is due of the quote that is consumed, or compared. -/
theorem Owes.access (hI : Inv s t m h) (hy : t.access s = some y) :
    (h.observe s (s.pcOf t.point) y m).Owes s (t.step s m) := by
  have howes := hI.owes
  have heaten := hI.eaten
  by_cases hp : ∃ seq, t.point = .tickSeq2 seq
  · obtain ⟨seq, hp⟩ := hp
    obtain ⟨point, r⟩ := t
    cases hp
    cases hy
    obtain ⟨hreads, hbid, hask⟩ := heaten
    rw [Thread.step_load rfl]
    simp only [Thread.resume]
    split_ifs with hseq
    · have hdue : (h.observe s (s.pcOf (.tickSeq2 seq)) (.load tickSeq) m).due =
          Due.ofQuote s h.eaten.anchor h.eaten.reading.bid h.eaten.reading.ask :=
        if_pos ⟨rfl, rfl, hseq.trans hreads.counter.symm⟩
      change (h.observe s (s.pcOf (.tickSeq2 seq)) (.load tickSeq) m).due = _
      rw [hdue, hbid, hask]
      cases s with
      | trading => rw [← hreads.anchor rfl]
      | marketMaker => rfl
    · exact (if_neg fun hc => hseq (hc.2.2.trans hreads.counter)).trans howes
  · have hne : ∀ seq, t.point ≠ .tickSeq2 seq := fun seq heq => hp ⟨seq, heq⟩
    exact .of_none (due_access howes hne hy) (not_hasDue_step hne hy)

/-- The accesses of the program keep the invariant. -/
theorem Inv.access (hI : Inv s t m h) (hy : t.access s = some y) :
    Inv s (t.step s m) (y.apply m) (h.observe s (s.pcOf t.point) y m) := by
  refine ⟨hI.writing.access hy, hI.numbered.access _ y, hI.eaten.access hy, ?_, .access hI hy,
    .access hI hy, fun hon => ?_, ?_⟩
  · rintro rfl
    exact (hI.quotes rfl).access hy
  · have hzero := (hI.off hon).1
    exact ⟨(Strategy.apply_input hy (by decide) (by decide)).trans hzero, Gate.access hI hon hy⟩
  · have hloop : t.point ≠ .loop := fun hp => by
      rw [Thread.access, hp] at hy
      cases hy
    by_cases hb : t.point = .beat
    · obtain ⟨point, r⟩ := t
      cases hb
      cases hy
      exact .inl (of_decide_eq_true rfl)
    · refine pass_step hI.pass hb ?_ (Thread.resume_toLoop (s := s) hloop _)
      simp only [observe]
      split_ifs
      · exact Nat.zero_le _
      · exact le_rfl

/-- A reset starts `INIT` over. -/
theorem Inv.reset (hI : Inv s t m h) (r : Regs) :
    Inv s (Thread.initial s r) m { h with pass := 0 } := by
  refine ⟨hI.writing, ⟨hI.numbered.begun, hI.numbered.latest, hI.numbered.source,
    hI.numbered.index⟩, ⟨rfl, rfl, rfl⟩, ?_, trivial, trivial, fun hon => ?_,
    .inl (of_decide_eq_true rfl)⟩
  · rintro rfl
    exact Quoting.sound_initial
  obtain ⟨hzero, hsignals, -⟩ := hI.off hon
  exact ⟨hzero, hsignals, trivial⟩

end Switch

/-- What the kill switch promises of the signals and the quotes, once it has been thrown. -/
structure Switch.Silent (s : Strategy) (c : Cpu) (h : Switch) : Prop where
  /-- At most one more decision is published. -/
  signals : h.signals ≤ 1
  /-- It is about a publish that began before the switch was thrown. -/
  source : c.pc = s.pcOf (.signalSeqStore 0) → h.signals = 0 ∧ c.mem signalTick = h.source.seq ∧
    h.pub.published.reverse[h.index]? = some h.source ∧ h.index ≤ h.begunOff
  /-- Every quote that has crossed the decision condition since has been rejected, once. -/
  rejects : c.pc = s.loopAt → 1 ≤ h.crossings →
    c.mem rejects = h.first + BitVec.ofNat 32 h.crossings ∧
      c.mem status = statusDisabled + statusRunning

/-- What the host can be told to do. -/
inductive SwitchCommand
  | publish (bid ask bidSize askSize : Word)
  | store
  | enable (v : Word)

/-- What it does then, if it can. -/
def SwitchCommand.perform (h : Switch) :
    SwitchCommand → Option (Option (Access Addr Word) × Switch)
  | .publish b a v w =>
    if h.pub.todo = [] then
      some (none, { h with
        pub := h.pub.publish b a v w
        begun := h.begun + 1 })
    else none
  | .store =>
    match h.pub.todo with
    | [] => none
    | (a, v) :: rest =>
      if a ∈ marketData then some (some (.store a v), { h with pub := h.pub.stored rest }) else none
  | .enable v => some (some (.store cfgEnable v), h.setEnable v)

/-- A host that has published nothing, with everything at zero. -/
def Switch.cold : Switch where
  pub := ⟨⟨0, 0, 0⟩, [], ⟨0, 0, 0⟩, ⟨0, 0, 0⟩, [⟨0, 0, 0⟩], ⟨0, 0, 0⟩, 0⟩
  begun := 0
  eaten := ⟨⟨0, 0, 0⟩, 0, 0, 0, 0, 0⟩
  quoting := .cold
  due := none
  source := ⟨0, 0, 0⟩
  index := 0
  off := false
  begunOff := 0
  signals := 0
  crossings := 0
  first := 0
  pass := 0

/-- A publish and its stores. -/
def SwitchCommand.quote (bid ask : Word) : List (Line SwitchCommand) :=
  .host (.publish bid ask 1 1) :: List.replicate 6 (.host .store)

end Fmma
