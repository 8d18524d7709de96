import Fmma.App
import Fmma.App.Attribution
import Fmma.App.Feed
import Fmma.Lib.Mailbox

/-!
# The event loop

`fmma_app_run`: the handlers of `fmma_app.c` with the feed and the executor, in any order of what
mongoose tells them and of the calls of the loop. Whatever the exchange and the broker send, the
host, the software strategy and the mailbox of the fabric keep the same account of the fills, and
the fabric is shown the quotes of the feed and no others.
-/

namespace Fmma

/-- What a handler reads off the clocks until an order is out, and whether mongoose has a connection
for it. -/
structure Readings where
  tickUs : ℕ
  askedUs : ℕ
  nowMs : BitVec 64
  nowUs : BitVec 64
  opened : Bool

/-- The host program as it runs. Beside it, with the latest first, the quotes that `on_quote` was
called with, and the orders that went out: when, and the side. -/
structure AppRun where
  cfg : AppConfig
  app : App
  feed : MarketFeed
  exec : Exec
  staleWarned : Bool
  quotes : List Quote
  orders : List (BitVec 64 × Word)

/-- An event on a connection, to the exchange or with a context of the executor, a signal that
`drain_fpga` finds, or another call of the loop. -/
inductive LoopEvent
  | feed (ev : FeedEvent) (nowUs : ℕ) (r : Readings)
  | broker (slot : Slot) (callback : Exec.Callback) (ev : ConnEvent)
  | signal (seq side tick : Word) (r : Readings)
  | execPoll (now : BitVec 64) (opened : Slot → Bool)
  | feedPoll (nowUs refusedUs : ℕ) (opened : Option ℕ)
  | checkFeedAge (nowUs : ℕ)

namespace AppRun

/-- `fmma_app_create`, from the switch on. With a fabric, its handle adopts the counters in the
RAM. -/
def create (cfg : AppConfig) (exec : ExecConfig) (haveCredentials : Bool)
    (ram : Option (Addr → Word)) : AppRun where
  cfg := cfg
  app := .create cfg (ram.map Fpga.adopt)
  feed := .create
  exec := .create exec haveCredentials
  staleWarned := false
  quotes := []
  orders := []

/-- A call of `fmma_exec_send`. -/
def send (r : Readings) (s : Word × Int) (x : AppRun) : AppRun :=
  let (slot, e) := x.exec.send s.1 s.2 r.nowMs r.nowUs r.opened
  { x with
    exec := e
    orders := if slot.isSome then (r.nowMs, s.1) :: x.orders else x.orders }

/-- A handler, and the order it ends with, if any. -/
def handle (x : AppRun) (ev : HostEvent) (r : Readings) : AppRun :=
  let a := x.app.step ev
  (a.sends.take (a.sends.length - x.app.sends.length)).foldr (send r) { x with app := a }

/-- `check_feed_age`. -/
def checkFeedAge (x : AppRun) (nowUs : ℕ) : AppRun :=
  if x.cfg.staleFeedMs = 0 ∨ x.staleWarned = true then x
  else if x.cfg.staleFeedMs * 1000 < x.app.feedAge nowUs then { x with staleWarned := true }
  else x

/-- What happens. The fills that a callback reports go to `on_fill`. -/
def step (x : AppRun) : LoopEvent → AppRun
  | .feed ev nowUs r =>
    let (f, q) := x.feed.feedCb nowUs ev
    let x := { x with feed := f }
    match q with
    | none => x
    | some q =>
      { x with
        staleWarned := false
        quotes := q :: x.quotes }.handle
          (.quote q.bid q.ask q.bidSize q.askSize r.tickUs r.askedUs) r
  | .broker slot callback ev =>
    let e := x.exec.deliver slot callback ev
    { x with
      exec := e
      app := (e.fills.take (e.fills.length - x.exec.fills.length)).foldr
        (fun f a => a.onFill f.1 f.2.1 f.2.2) x.app }
  | .signal seq side tick r => x.handle (.signal seq side tick r.askedUs) r
  | .execPoll now opened => { x with exec := (x.exec.poll now opened).2 }
  | .feedPoll nowUs refusedUs opened => { x with feed := x.feed.poll nowUs refusedUs opened }
  | .checkFeedAge nowUs => x.checkFeedAge nowUs

end AppRun

/-! ### The accounts -/

/-- What fills make of an inventory. -/
def netFills (fills : List (Word × Word × Int)) : Int :=
  (fills.map fun f => if f.1 = fillBought then f.2.1.toInt else -f.2.1.toInt).sum

/-- A store of `FILL_SEQ`: a fill is reported. -/
def reportsFill (x : Addr × Word) : Bool := x.1 = fillSeq

/-- The fill in the mailbox: its side and its quantity. -/
def mailboxFill (m : Addr → Word) : Word × Word := (m fillSide, m fillQty)

/-- A store of an even `TICK_SEQ`: a quote is complete. -/
def completesQuote (x : Addr × Word) : Bool := x.1 = tickSeq && x.2.toNat % 2 == 0

/-- The quote in the RAM. -/
def shownQuote (m : Addr → Word) : Quote := ⟨m bid, m ask, m bidSize, m askSize⟩

/-- A quote the fabric can work with: prices from 1 to `FMMA_PRICE_MAX`, and sizes that are not
negative. -/
structure Quote.InRange (q : Quote) : Prop where
  bid : 1 ≤ q.bid.toNat ∧ q.bid.toNat ≤ 0x3FFFFFFF
  ask : 1 ≤ q.ask.toNat ∧ q.ask.toNat ≤ 0x3FFFFFFF
  bidSize : q.bidSize.toNat < 0x7FFFFFFF
  askSize : q.askSize.toNat < 0x7FFFFFFF

/-! ### What the parts do to the accounts -/

theorem netFills_cons (f : Word × Word × Int) (fills : List (Word × Word × Int)) :
    netFills (f :: fills) =
      (if f.1 = fillBought then f.2.1.toInt else -f.2.1.toInt) + netFills fills := by
  rw [netFills, List.map_cons, List.sum_cons, netFills]

namespace Risk

theorem onFill_position (r : Risk) (side qty : Word) (price : Int) :
    (r.onFill side qty price).position =
      r.position + if side = fillBought then qty.toInt else -qty.toInt := by
  simp only [onFill]
  by_cases hq : qty = 0
  · have hzero : (0 : Word).toInt = 0 := rfl
    rw [if_pos hq, hq, hzero, neg_zero, ite_self, add_zero]
  · rw [if_neg hq]
    split_ifs <;> rfl

theorem mark_position (r : Risk) (mid : Int) : (r.mark mid).position = r.position := by
  rw [mark]
  split_ifs <;> rfl

theorem check_position (r : Risk) (feedAgeUs : ℕ) :
    (r.check feedAgeUs).2.position = r.position := by
  rw [check]
  split_ifs <;> rfl

end Risk

theorem SoftStrategy.onFill_position (s : SoftStrategy) (side qty : Word) :
    (s.onFill side qty).position =
      s.position + if side = fillBought then qty.toInt else -qty.toInt := by
  rw [onFill]
  split_ifs with h
  · rfl
  · exact sub_eq_add_neg _ _

theorem SoftStrategy.onQuote_position (s : SoftStrategy) (bid ask : Word) :
    (s.onQuote bid ask).2.position = s.position := by
  simp only [onQuote]
  split_ifs <;> rfl

namespace MarketFeed

theorem size_lt (json name : Text) : (size json name).toNat < 0x7FFFFFFF := by
  rw [size]
  split
  · exact Nat.zero_lt_succ _
  · dsimp only
    split_ifs with h
    · rw [BitVec.toNat_ofInt]
      omega
    · exact Nat.zero_lt_succ _

theorem clampPrice_inRange (v : Int) (h : (Fixed.clampPrice v).1 ≠ 0) :
    1 ≤ (Fixed.clampPrice v).1.toNat ∧ (Fixed.clampPrice v).1.toNat ≤ 0x3FFFFFFF := by
  have hvalue := (Fixed.clampPrice_spec v).1
  have hzero : (Fixed.clampPrice v).1.toNat ≠ 0 := fun hc => h (BitVec.eq_of_toNat_eq hc)
  rw [Fixed.priceMax] at hvalue
  omega

/-- Whatever the bytes of a message, its quote is one the fabric can work with. -/
theorem inRange_feedCb (f : MarketFeed) (nowUs : ℕ) (ev : FeedEvent) :
    ∀ q ∈ (f.feedCb nowUs ev).2, q.InRange := by
  have hticker : ∀ json, ∀ q ∈ (f.handleTicker json).2, q.InRange := by
    intro json q hq
    rw [handleTicker] at hq
    split at hq
    · dsimp only at hq
      split_ifs at hq with herror hzero
      · cases hq
      · cases hq
      · cases hq
      all_goals
        obtain rfl := Option.some_inj.mp hq
        obtain ⟨hbid, hask⟩ := not_or.mp hzero
        exact ⟨clampPrice_inRange _ hbid, clampPrice_inRange _ hask, size_lt _ _, size_lt _ _⟩
    · cases hq
  intro q hq
  cases ev with
  | wsMsg bytes allocated =>
    rw [feedCb] at hq
    split_ifs at hq
    · cases hq
    · exact hticker _ q hq
    · cases hq
  | connect | wsOpen | error | close => cases hq

end MarketFeed

/-! ### The stores of the handlers -/

namespace Fpga

open Mailbox

variable (f : Fpga) (m : Addr → Word)

/-- A publication shows one quote, with the second store of the counter. -/
theorem posted_publishTick (heven : f.tickSeq.toNat % 2 = 0) (q : Quote) :
    posted completesQuote shownQuote m (f.publishTick q.bid q.ask q.bidSize q.askSize).1 = [q] := by
  have hone : (1 : Word).toNat = 1 := rfl
  have hfirst : ¬completesQuote (Fmma.tickSeq, f.tickSeq + 1) = true := by
    simp only [completesQuote, decide_true, Bool.true_and, beq_iff_eq]
    rw [BitVec.toNat_add]
    omega
  have hlast : completesQuote (Fmma.tickSeq, f.tickSeq + 1 + 1) = true := by
    simp only [completesQuote, decide_true, Bool.true_and, beq_iff_eq]
    rw [BitVec.toNat_add, BitVec.toNat_add]
    omega
  have hother : ∀ d : Addr, d ≠ Fmma.tickSeq → ∀ w, ¬completesQuote (d, w) = true := by
    intro d hd w hc
    exact hd (of_decide_eq_true ((Bool.and_eq_true _ _).mp hc).1)
  simp only [publishTick, posted]
  rw [if_neg hfirst, if_neg (hother _ (by decide) _), if_neg (hother _ (by decide) _),
    if_neg (hother _ (by decide) _), if_neg (hother _ (by decide) _), if_pos hlast]
  rfl

theorem even_publishTick (heven : f.tickSeq.toNat % 2 = 0) (bid ask bidSize askSize : Word) :
    (f.publishTick bid ask bidSize askSize).2.tickSeq.toNat % 2 = 0 := by
  have hone : (1 : Word).toNat = 1 := rfl
  change (f.tickSeq + 1 + 1).toNat % 2 = 0
  rw [BitVec.toNat_add, BitVec.toNat_add]
  omega

/-- A publication reports no fill. -/
theorem silent_publishTick (bid ask bidSize askSize : Word) :
    posted reportsFill mailboxFill m (f.publishTick bid ask bidSize askSize).1 = [] := by
  refine posted_of_silent fun x hx => ?_
  simp only [publishTick, List.mem_cons, List.not_mem_nil, or_false] at hx
  rcases hx with rfl | rfl | rfl | rfl | rfl | rfl <;> rfl

/-- A report is one fill, with the store of the counter. -/
theorem posted_reportFill (side qty : Word) :
    posted reportsFill mailboxFill m (f.reportFill side qty).1 = [(side, qty)] := by
  simp [reportFill, posted, reportsFill, mailboxFill, Function.update]

/-- A report completes no quote. -/
theorem silent_reportFill (side qty : Word) :
    posted completesQuote shownQuote m (f.reportFill side qty).1 = [] := by
  refine posted_of_silent fun x hx => ?_
  simp only [reportFill, List.mem_cons, List.not_mem_nil, or_false] at hx
  rcases hx with rfl | rfl | rfl <;> rfl

theorem even_adopt : (adopt m).tickSeq.toNat % 2 = 0 := by
  have hmask : (~~~(1 : Word)).toNat % 2 ^ 1 = 0 := by decide
  change (m Fmma.tickSeq &&& ~~~1).toNat % 2 ^ 1 = 0
  rw [BitVec.toNat_and, Nat.and_mod_two_pow, hmask, Nat.and_zero]

end Fpga

namespace App

open Mailbox

/-- The account of the fills and the quotes so far, the latest first. The mailbox and the quotes are
those of the fabric, if there is one. -/
structure Accounts (start : Int) (present : Bool) (fills : List (Word × Word × Int))
    (quotes : List Quote) (a : App) : Prop where
  risk : a.risk.position = start + netFills fills
  soft : a.soft.position = start + netFills fills
  fabric : a.fpga.isSome = present
  even : ∀ f ∈ a.fpga, f.tickSeq.toNat % 2 = 0
  reported : present = true → ∀ m,
    posted reportsFill mailboxFill m a.stores.reverse = (fills.map fun f => (f.1, f.2.1)).reverse
  shown : present = true → ∀ m, posted completesQuote shownQuote m a.stores.reverse = quotes.reverse

/-- A handler leaves the account alone: all it may store is the switch. -/
structure Leaves (a b : App) : Prop where
  risk : b.risk.position = a.risk.position
  soft : b.soft.position = a.soft.position
  fpga : b.fpga.map Fpga.tickSeq = a.fpga.map Fpga.tickSeq
  stores : ∃ l, b.stores = l ++ a.stores ∧ ∀ x ∈ l, x.1 = cfgEnable

variable {a b c : App} {start : Int} {present : Bool} {fills : List (Word × Word × Int)}
  {quotes : List Quote}

theorem leaves_of_stores (hrisk : b.risk.position = a.risk.position)
    (hsoft : b.soft.position = a.soft.position)
    (hfpga : b.fpga.map Fpga.tickSeq = a.fpga.map Fpga.tickSeq) (hstores : b.stores = a.stores) :
    Leaves a b := ⟨hrisk, hsoft, hfpga, [], hstores, fun _ hx => absurd hx List.not_mem_nil⟩

theorem Leaves.refl (a : App) : Leaves a a := leaves_of_stores rfl rfl rfl rfl

theorem Leaves.trans (h : Leaves a b) (h' : Leaves b c) : Leaves a c := by
  obtain ⟨l, hl, hswitch⟩ := h.stores
  obtain ⟨l', hl', hswitch'⟩ := h'.stores
  refine ⟨h'.risk.trans h.risk, h'.soft.trans h.soft, h'.fpga.trans h.fpga, l' ++ l, ?_, ?_⟩
  · rw [hl', hl, List.append_assoc]
  · intro x hx
    rcases List.mem_append.mp hx with hx | hx
    · exact hswitch' x hx
    · exact hswitch x hx

theorem leaves_setEnabled (a : App) (enabled : Bool) : Leaves a (a.setEnabled enabled) := by
  rw [setEnabled]
  split_ifs
  · refine ⟨rfl, rfl, rfl, Fmma.setEnabled enabled, rfl, fun x hx => ?_⟩
    rw [List.mem_singleton.mp hx]
  · exact Leaves.refl a

theorem leaves_actOn (a : App) (side : Word) (askedUs : ℕ) : Leaves a (a.actOn side askedUs) := by
  have hchecked : Leaves a { a with risk := (a.risk.check (a.feedAge askedUs)).2 } :=
    leaves_of_stores (Risk.check_position _ _) rfl rfl rfl
  simp only [actOn]
  split_ifs
  · exact hchecked.trans (leaves_setEnabled _ _)
  · exact hchecked
  · exact hchecked.trans (leaves_of_stores rfl rfl rfl rfl)

theorem leaves_onSignal (a : App) (seq side tick : Word) (askedUs : ℕ) :
    Leaves a (a.onSignal seq side tick askedUs) := by
  rw [onSignal]
  cases hf : a.fpga with
  | none => exact Leaves.refl a
  | some f =>
    have hreceived : Leaves a { a with fpga := some (f.received seq side tick).2 } :=
      leaves_of_stores rfl rfl (by rw [hf]; rfl) rfl
    dsimp only
    split_ifs
    · exact hreceived.trans (leaves_actOn _ _ _)
    · exact hreceived

/-- Without a fabric, a quote stores nothing. -/
theorem leaves_onQuote (hf : a.fpga = none) (bid ask bidSize askSize : Word)
    (tickUs askedUs : ℕ) : Leaves a (a.onQuote bid ask bidSize askSize tickUs askedUs) := by
  have hmarked : (a.marked bid ask).fpga = none := hf
  simp only [onQuote, hmarked]
  split_ifs
  · refine Leaves.trans ?_ (leaves_actOn _ _ _)
    exact leaves_of_stores (Risk.mark_position _ _) (SoftStrategy.onQuote_position _ _ _)
      (by rw [hf]) rfl
  · exact leaves_of_stores (Risk.mark_position _ _) (SoftStrategy.onQuote_position _ _ _)
      (by rw [hf]) rfl

theorem Accounts.leaves (h : Accounts start present fills quotes a) (hb : Leaves a b) :
    Accounts start present fills quotes b := by
  obtain ⟨l, hl, hswitch⟩ := hb.stores
  have hsilent : ∀ rings : Addr × Word → Bool, (∀ w, rings (cfgEnable, w) = false) →
      ∀ x ∈ l.reverse, rings x = false := by
    intro rings hrings x hx
    have hx := hswitch x (List.mem_reverse.mp hx)
    have hpair : x = (cfgEnable, x.2) := Prod.ext hx rfl
    rw [hpair]
    exact hrings x.2
  have hsome := congrArg Option.isSome hb.fpga
  rw [Option.isSome_map, Option.isSome_map] at hsome
  refine ⟨hb.risk.trans h.risk, hb.soft.trans h.soft, hsome.trans h.fabric, ?_, ?_, ?_⟩
  · intro f hf
    have hmap := hb.fpga
    rw [Option.mem_def.mp hf] at hmap
    obtain ⟨g, hg, hseq⟩ := Option.map_eq_some_iff.mp hmap.symm
    rw [← hseq]
    exact h.even g hg
  · intro hpresent m
    rw [hl, List.reverse_append, posted_append, h.reported hpresent m,
      posted_of_silent (hsilent _ fun _ => rfl), List.append_nil]
  · intro hpresent m
    rw [hl, List.reverse_append, posted_append, h.shown hpresent m,
      posted_of_silent (hsilent _ fun _ => rfl), List.append_nil]

/-- A quote is shown to the fabric. -/
theorem Accounts.quote (h : Accounts start present fills quotes a) (q : Quote)
    (tickUs askedUs : ℕ) : Accounts start present fills (q :: quotes)
      (a.onQuote q.bid q.ask q.bidSize q.askSize tickUs askedUs) := by
  cases hf : a.fpga with
  | none =>
    have hleft := h.leaves (leaves_onQuote hf q.bid q.ask q.bidSize q.askSize tickUs askedUs)
    have hnone : ¬present = true := by
      rw [← h.fabric, hf]
      exact Bool.false_ne_true
    exact ⟨hleft.risk, hleft.soft, hleft.fabric, hleft.even, hleft.reported,
      fun hc => absurd hc hnone⟩
  | some f =>
    have hmarked : (a.marked q.bid q.ask).fpga = some f := hf
    have heven := h.even f hf
    simp only [onQuote, hmarked]
    refine ⟨(Risk.mark_position _ _).trans h.risk, h.soft, ?_, ?_, ?_, ?_⟩
    · rw [← h.fabric, hf]
      rfl
    · rintro g ⟨⟩
      exact f.even_publishTick heven _ _ _ _
    · intro hpresent m
      change posted _ _ m ((f.publishTick q.bid q.ask q.bidSize q.askSize).1.reverse ++
        a.stores).reverse = _
      rw [List.reverse_append, List.reverse_reverse, posted_append, h.reported hpresent m,
        f.silent_publishTick, List.append_nil]
    · intro hpresent m
      change posted _ _ m ((f.publishTick q.bid q.ask q.bidSize q.askSize).1.reverse ++
        a.stores).reverse = _
      rw [List.reverse_append, List.reverse_reverse, posted_append, h.shown hpresent m,
        f.posted_publishTick _ heven, List.reverse_cons]

/-- A fill is entered everywhere. -/
theorem Accounts.fill (h : Accounts start present fills quotes a) (side qty : Word) (price : Int) :
    Accounts start present ((side, qty, price) :: fills) quotes (a.onFill side qty price) := by
  have hnet : start + netFills ((side, qty, price) :: fills) =
      start + netFills fills + if side = fillBought then qty.toInt else -qty.toInt := by
    rw [netFills_cons]
    exact (add_left_comm _ _ _).trans (add_comm _ _)
  have hrisk : (a.risk.onFill side qty price).position =
      start + netFills ((side, qty, price) :: fills) := by
    rw [Risk.onFill_position, h.risk, hnet]
  have hsoft : (a.soft.onFill side qty).position =
      start + netFills ((side, qty, price) :: fills) := by
    rw [SoftStrategy.onFill_position, h.soft, hnet]
  cases hf : a.fpga with
  | none =>
    have hnone : ¬present = true := by
      rw [← h.fabric, hf]
      exact Bool.false_ne_true
    simp only [onFill, hf]
    exact ⟨hrisk, hsoft, by rw [← h.fabric, hf], fun _ hc => absurd hc (Option.not_mem_none _),
      fun hc => absurd hc hnone, fun hc => absurd hc hnone⟩
  | some f =>
    simp only [onFill, hf]
    refine ⟨hrisk, hsoft, ?_, ?_, ?_, ?_⟩
    · rw [← h.fabric, hf]
      rfl
    · rintro g ⟨⟩
      exact h.even f hf
    · intro hpresent m
      change posted _ _ m ((f.reportFill side qty).1.reverse ++ a.stores).reverse = _
      rw [List.reverse_append, List.reverse_reverse, posted_append, h.reported hpresent m,
        f.posted_reportFill, List.map_cons, List.reverse_cons]
    · intro hpresent m
      change posted _ _ m ((f.reportFill side qty).1.reverse ++ a.stores).reverse = _
      rw [List.reverse_append, List.reverse_reverse, posted_append, h.shown hpresent m,
        f.silent_reportFill, List.append_nil]

theorem accounts_create (cfg : AppConfig) (ram : Option (Addr → Word)) :
    Accounts cfg.startPosition ram.isSome [] [] (create cfg (ram.map Fpga.adopt)) := by
  refine ⟨(add_zero _).symm, (add_zero _).symm, Option.isSome_map, ?_, ?_, ?_⟩
  · intro f hf
    obtain ⟨m, -, rfl⟩ := Option.map_eq_some_iff.mp hf
    exact Fpga.even_adopt m
  · intro hpresent m
    have hstores : (create cfg (ram.map Fpga.adopt)).stores = Fmma.setEnabled true := by
      rw [create, Option.isSome_map, if_pos hpresent]
    rw [hstores]
    rfl
  · intro hpresent m
    have hstores : (create cfg (ram.map Fpga.adopt)).stores = Fmma.setEnabled true := by
      rw [create, Option.isSome_map, if_pos hpresent]
    rw [hstores]
    rfl

end App

namespace AppRun

open App Exec

variable {x y : AppRun} {r : Readings} {start : Int} {present : Bool}

/-- The account of a run. -/
def Accounted (start : Int) (present : Bool) (x : AppRun) : Prop :=
  x.app.Accounts start present x.exec.fills x.quotes

/-- An order may go out, and nothing of the account changes. -/
structure Sent (x y : AppRun) : Prop where
  app : y.app = x.app
  quotes : y.quotes = x.quotes
  fills : y.exec.fills = x.exec.fills

theorem sent_send (r : Readings) (s : Word × Int) (x : AppRun) : Sent x (x.send r s) :=
  ⟨rfl, rfl, (sends_send x.exec s.1 s.2 r.nowMs r.nowUs r.opened).fills⟩

theorem sent_foldr (r : Readings) (l : List (Word × Int)) (x : AppRun) :
    Sent x (l.foldr (send r) x) := by
  induction l with
  | nil => exact ⟨rfl, rfl, rfl⟩
  | cons s l ih =>
    have hs := sent_send r s (l.foldr (send r) x)
    exact ⟨hs.app.trans ih.app, hs.quotes.trans ih.quotes, hs.fills.trans ih.fills⟩

theorem Accounted.sent (h : x.Accounted start present) (hs : Sent x y) :
    y.Accounted start present := by
  rw [Accounted, hs.app, hs.quotes, hs.fills]
  exact h

/-- The fills that a callback adds: none, or one. -/
theorem reported_deliver (e : Exec) (slot : Slot) (callback : Callback) (ev : ConnEvent) (a : App) :
    let e' := e.deliver slot callback ev
    let a' := (e'.fills.take (e'.fills.length - e.fills.length)).foldr
      (fun f a => a.onFill f.1 f.2.1 f.2.2) a
    (e'.fills = e.fills ∧ a' = a) ∨
      ∃ side qty price, e'.fills = (side, qty, price) :: e.fills ∧
        a' = a.onFill side qty price := by
  dsimp only
  rcases (handles_deliver e slot callback ev).fills with h | ⟨qty, price, h, -, -⟩
  · refine .inl ⟨h, ?_⟩
    rw [h, Nat.sub_self, List.take_zero]
    rfl
  · refine .inr ⟨_, qty, price, h, ?_⟩
    rw [h, List.length_cons, Nat.add_sub_cancel_left, List.take_succ_cons, List.take_zero]
    rfl

/-- **Every event keeps the account.** -/
theorem Accounted.step (h : x.Accounted start present) (e : LoopEvent) :
    (x.step e).Accounted start present := by
  cases e with
  | feed ev nowUs r =>
    simp only [AppRun.step]
    cases (x.feed.feedCb nowUs ev).2 with
    | none => exact h
    | some q =>
      refine Accounted.sent ?_ (sent_foldr r _ _)
      exact Accounts.quote h q r.tickUs r.askedUs
  | broker slot callback ev =>
    rcases reported_deliver x.exec slot callback ev x.app with ⟨hf, ha⟩ | ⟨_, _, _, hf, ha⟩
    · simp only [AppRun.step, ha]
      rw [Accounted, hf]
      exact h
    · simp only [AppRun.step, ha]
      rw [Accounted, hf]
      exact Accounts.fill h _ _ _
  | signal seq side tick r =>
    refine Accounted.sent ?_ (sent_foldr r _ _)
    exact Accounts.leaves h (leaves_onSignal _ _ _ _ _)
  | execPoll now opened =>
    have hfills := (polls_poll x.exec now opened).fills
    simp only [AppRun.step]
    rw [Accounted, hfills]
    exact h
  | feedPoll nowUs refusedUs opened => exact h
  | checkFeedAge nowUs =>
    simp only [AppRun.step, checkFeedAge]
    split_ifs
    · exact h
    · exact h
    · exact h

theorem accounted_create (cfg : AppConfig) (exec : ExecConfig) (haveCredentials : Bool)
    (ram : Option (Addr → Word)) :
    (create cfg exec haveCredentials ram).Accounted cfg.startPosition ram.isSome :=
  accounts_create cfg ram

theorem accounted_run (cfg : AppConfig) (exec : ExecConfig) (haveCredentials : Bool)
    (ram : Option (Addr → Word)) (l : List LoopEvent) :
    (Trace.run step (create cfg exec haveCredentials ram) l).Accounted cfg.startPosition
      ram.isSome := by
  have hrun := Trace.always_of_step (l := l) (I := Accounted cfg.startPosition ram.isSome)
    (fun _ e h => h.step e) (accounted_create cfg exec haveCredentials ram)
  exact hrun l List.prefix_rfl

/-- The quotes of a run are in range. -/
theorem inRange_step (h : ∀ q ∈ x.quotes, q.InRange) (e : LoopEvent) :
    ∀ q ∈ (x.step e).quotes, q.InRange := by
  cases e with
  | feed ev nowUs r =>
    have hfeed := x.feed.inRange_feedCb nowUs ev
    simp only [AppRun.step]
    cases hq : (x.feed.feedCb nowUs ev).2 with
    | none => exact h
    | some q =>
      dsimp only [handle]
      rw [(sent_foldr r _ _).quotes]
      intro q' hq'
      rcases List.mem_cons.mp hq' with rfl | hmem
      · exact hfeed q' hq
      · exact h q' hmem
  | signal seq side tick r =>
    simp only [AppRun.step, handle]
    rw [(sent_foldr r _ _).quotes]
    exact h
  | checkFeedAge nowUs =>
    simp only [AppRun.step, checkFeedAge]
    split_ifs
    · exact h
    · exact h
    · exact h
  | broker slot callback ev => exact h
  | execPoll now opened => exact h
  | feedPoll nowUs refusedUs opened => exact h

end AppRun

/-- **The accounts of the fills agree.** Whatever the exchange and the broker send, in any order:
the inventory of the risk check and that of the software strategy are the start position and the
fills that were reported, and in the mailbox of the fabric stand, one after the other, these
fills. -/
theorem ledgers_agree (cfg : AppConfig) (exec : ExecConfig) (haveCredentials : Bool)
    (ram : Option (Addr → Word)) (l : List LoopEvent) :
    let x := Trace.run AppRun.step (.create cfg exec haveCredentials ram) l
    x.app.risk.position = cfg.startPosition + netFills x.exec.fills ∧
      x.app.soft.position = cfg.startPosition + netFills x.exec.fills ∧
      (ram.isSome = true → ∀ m, Mailbox.posted reportsFill mailboxFill m x.app.stores.reverse =
        (x.exec.fills.map fun f => (f.1, f.2.1)).reverse) := by
  have hend := AppRun.accounted_run cfg exec haveCredentials ram l
  exact ⟨hend.risk, hend.soft, hend.reported⟩

/-- **The fabric sees the quotes of the feed.** Whatever the exchange sends, and whatever else
happens: what the tick block shows, each time its counter becomes even, are the quotes of the feed,
one after the other, and these have prices and sizes the fabric can work with. -/
theorem quotes_shown (cfg : AppConfig) (exec : ExecConfig) (haveCredentials : Bool)
    (ram : Option (Addr → Word)) (l : List LoopEvent) :
    let x := Trace.run AppRun.step (.create cfg exec haveCredentials ram) l
    (ram.isSome = true → ∀ m, Mailbox.posted completesQuote shownQuote m x.app.stores.reverse =
      x.quotes.reverse) ∧ ∀ q ∈ x.quotes, q.InRange := by
  have hrange := Trace.always_of_step (l := l) (I := fun x : AppRun => ∀ q ∈ x.quotes, q.InRange)
    (fun _ e h => AppRun.inRange_step h e)
    (show ∀ q ∈ (AppRun.create cfg exec haveCredentials ram).quotes, q.InRange from
      fun _ hq => absurd hq List.not_mem_nil)
  exact ⟨(AppRun.accounted_run cfg exec haveCredentials ram l).shown, hrange l List.prefix_rfl⟩

end Fmma
