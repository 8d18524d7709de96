import Fmma.App
import Fmma.Lib.Trace

/-!
# The loss limit

`fmma_risk_check` compares the P&L with the limit when a decision is about to be sent, and only
then. The P&L moves between decisions, so the limit is sticky from the decision on that finds it
exceeded, not from the moment it is exceeded: a loss that is made good before the next decision
leaves no trace. With a fabric no event that moves the P&L brings a decision too, so the switch is
still on whenever the limit has just been exceeded.
-/

namespace Fmma

namespace App

/-- The event brings a decision to `act_on`. -/
def Decides (a : App) : HostEvent → Prop
  | .quote bid ask .. => a.fpga = none ∧ (a.soft.onQuote bid ask).1 ≠ signalNone
  | .fill .. => False
  | .signal _ side .. => a.fpga ≠ none ∧ (side = signalBuy ∨ side = signalSell)

instance (a : App) (e : HostEvent) : Decidable (a.Decides e) := by
  cases e <;> unfold Decides <;> infer_instance

/-- The P&L as `act_on` finds it, if the event brings it a decision. -/
def found (a : App) : HostEvent → Risk
  | .quote bid ask .. => (a.marked bid ask).risk
  | .fill .. | .signal .. => a.risk

/-- How old the feed is then. -/
def foundAge (a : App) : HostEvent → Nat
  | .quote _ _ _ _ tickUs askedUs => askedUs - tickUs
  | .signal _ _ _ askedUs => a.feedAge askedUs
  | .fill .. => 0

/-! ### What the handlers do -/

variable {a : App} {side : Word} {askedUs : Nat}

/-- No decision, or one that is not acted on: no order, no store of `CFG_ENABLE`. -/
structure Idle (a b : App) : Prop where
  sends : b.sends = a.sends
  enable : b.word cfgEnable = a.word cfgEnable
  fabric : b.fpga.isSome = a.fpga.isSome
  halted : b.risk.halted = a.risk.halted

/-- The switch is thrown: no order, and `CFG_ENABLE = 0`. -/
structure Halts (a b : App) : Prop where
  sends : b.sends = a.sends
  enable : b.fpga.isSome = true → b.word cfgEnable = some 0
  fabric : b.fpga.isSome = a.fpga.isSome
  halted : b.risk.halted = true

/-- An order is sent, and nothing else is done. -/
structure Sends (a b : App) : Prop where
  sends : b.sends.length = a.sends.length + 1
  enable : b.word cfgEnable = a.word cfgEnable
  fabric : b.fpga.isSome = a.fpga.isSome
  halted : b.risk.halted = a.risk.halted

/-- A decision that finds the limit exceeded, now or earlier, throws the switch. -/
theorem actOn_halts (h : a.risk.halted = true ∨ a.risk.Breached) :
    Halts a (a.actOn side askedUs) := by
  have hcheck : (a.risk.check (a.feedAge askedUs)).1 ≠ .ok ∧
      ((a.risk.check (a.feedAge askedUs)).1 = .lossLimit ∨
        (a.risk.check (a.feedAge askedUs)).1 = .halted) ∧
      (a.risk.check (a.feedAge askedUs)).2.halted = true := by
    by_cases hh : a.risk.halted = true
    · simp [Risk.check, hh]
    · have hb : a.risk.Breached := h.resolve_left hh
      simp [Risk.check, hh, hb, Risk.halt]
  obtain ⟨hne, hv, hhalted⟩ := hcheck
  have hact : a.actOn side askedUs =
      ({ a with risk := (a.risk.check (a.feedAge askedUs)).2 } : App).setEnabled false := by
    simp only [actOn, if_pos hne, if_pos hv]
  rw [hact, setEnabled]
  by_cases hf : a.fpga.isSome = true
  · rw [if_pos hf]
    exact ⟨rfl, fun _ => rfl, rfl, hhalted⟩
  · rw [if_neg hf]
    exact ⟨rfl, fun hf' => absurd hf' hf, rfl, hhalted⟩

/-- One that finds an old feed is dropped. -/
theorem actOn_idle (hh : a.risk.halted = false) (hb : ¬a.risk.Breached)
    (hs : a.risk.Stale (a.feedAge askedUs)) : Idle a (a.actOn side askedUs) := by
  have hcheck : a.risk.check (a.feedAge askedUs) = (.staleFeed, a.risk) := by
    simp [Risk.check, hh, hb, hs]
  have hact : a.actOn side askedUs = a := by
    simp [actOn, hcheck]
  rw [hact]
  exact ⟨rfl, rfl, rfl, rfl⟩

/-- Any other is sent. -/
theorem actOn_sends (hh : a.risk.halted = false) (hb : ¬a.risk.Breached)
    (hs : ¬a.risk.Stale (a.feedAge askedUs)) : Sends a (a.actOn side askedUs) := by
  have hcheck : a.risk.check (a.feedAge askedUs) = (.ok, a.risk) := by
    simp [Risk.check, hh, hb, hs]
  have hact : a.actOn side askedUs = { a with sends := (side, a.lastMid) :: a.sends } := by
    simp [actOn, hcheck]
  rw [hact]
  exact ⟨rfl, rfl, rfl, rfl⟩

/-- The handler of an event that brings no decision. -/
theorem step_idle {e : HostEvent} (h : ¬a.Decides e) : Idle a (a.step e) := by
  cases e with
  | quote bid ask bidSize askSize tickUs askedUs =>
    cases hf : a.fpga with
    | none =>
      have hnone : (a.soft.onQuote bid ask).1 = signalNone := by
        by_contra hne
        exact h ⟨hf, hne⟩
      simp only [step, onQuote, marked, hf, hnone, ne_eq, not_true_eq_false, if_false]
      exact ⟨rfl, rfl, by rw [hf], Risk.mark_halted _⟩
    | some f =>
      simp only [step, onQuote, marked, hf]
      exact ⟨rfl, rfl, by rw [hf]; rfl, Risk.mark_halted _⟩
  | fill side qty price =>
    cases hf : a.fpga with
    | none =>
      simp only [step, onFill, hf]
      exact ⟨rfl, rfl, by rw [hf], Risk.onFill_halted side qty price⟩
    | some f =>
      simp only [step, onFill, hf]
      exact ⟨rfl, rfl, by rw [hf]; rfl, Risk.onFill_halted side qty price⟩
  | signal seq side tick askedUs =>
    cases hf : a.fpga with
    | none =>
      simp only [step, onSignal, hf]
      exact ⟨rfl, rfl, rfl, rfl⟩
    | some f =>
      have hside : ¬(side = signalBuy ∨ side = signalSell) := by
        intro hside
        exact h ⟨by rw [hf]; exact Option.some_ne_none f, hside⟩
      simp only [step, onSignal, hf, if_neg hside]
      exact ⟨rfl, rfl, by rw [hf]; rfl, rfl⟩

/-- The handler of a decision is `act_on`, in a state that differs from the one before in nothing
that concerns orders and the switch. -/
theorem step_decides {e : HostEvent} (h : a.Decides e) :
    ∃ b side askedUs, a.step e = b.actOn side askedUs ∧ Idle a b ∧ b.risk = a.found e ∧
      b.feedAge askedUs = a.foundAge e := by
  cases e with
  | quote bid ask bidSize askSize tickUs askedUs =>
    obtain ⟨hf, hne⟩ := h
    refine ⟨{ a.marked bid ask with
      soft := (a.soft.onQuote bid ask).2
      lastTickUs := tickUs }, (a.soft.onQuote bid ask).1, askedUs, ?_, ?_, rfl, rfl⟩
    · simp only [step, onQuote, marked, hf, if_pos hne]
    · exact ⟨rfl, rfl, rfl, Risk.mark_halted _⟩
  | fill side qty price => exact h.elim
  | signal seq side tick askedUs =>
    obtain ⟨hf, hside⟩ := h
    obtain ⟨f, hf⟩ := Option.ne_none_iff_exists'.mp hf
    refine ⟨{ a with fpga := some (f.received seq side tick).2 }, side, askedUs, ?_, ?_, rfl, rfl⟩
    · simp only [step, onSignal, hf, if_pos hside]
    · exact ⟨rfl, rfl, by rw [hf]; rfl, rfl⟩

/-- What the handler of a decision finds decides what it does. -/
theorem step_cases {e : HostEvent} (h : a.Decides e) :
    (a.risk.halted = true ∨ (a.found e).Breached) ∧ Halts a (a.step e) ∨
    (a.risk.halted = false ∧ ¬(a.found e).Breached) ∧
      ((a.found e).Stale (a.foundAge e) ∧ Idle a (a.step e) ∨
        ¬(a.found e).Stale (a.foundAge e) ∧ Sends a (a.step e)) := by
  obtain ⟨b, side, askedUs, hstep, hidle, hrisk, hage⟩ := step_decides h
  rw [hstep, ← hrisk, ← hage, ← hidle.halted]
  by_cases hbad : b.risk.halted = true ∨ b.risk.Breached
  · have hact : b.Halts (b.actOn side askedUs) := actOn_halts hbad
    exact .inl ⟨hbad, hact.sends.trans hidle.sends, hact.enable, hact.fabric.trans hidle.fabric,
      hact.halted⟩
  · obtain ⟨hh, hb⟩ := not_or.mp hbad
    have hh : b.risk.halted = false := Bool.eq_false_iff.mpr hh
    refine .inr ⟨⟨hh, hb⟩, ?_⟩
    by_cases hs : b.risk.Stale (b.feedAge askedUs)
    · have hact : b.Idle (b.actOn side askedUs) := actOn_idle hh hb hs
      exact .inl ⟨hs, hact.sends.trans hidle.sends, hact.enable.trans hidle.enable,
        hact.fabric.trans hidle.fabric, hact.halted.trans hidle.halted⟩
    · have hact : b.Sends (b.actOn side askedUs) := actOn_sends hh hb hs
      refine .inr ⟨hs, ?_, hact.enable.trans hidle.enable, hact.fabric.trans hidle.fabric,
        hact.halted.trans hidle.halted⟩
      rw [hact.sends, hidle.sends]

/-- The fabric stays. -/
theorem fabric_step (a : App) (e : HostEvent) : (a.step e).fpga.isSome = a.fpga.isSome := by
  by_cases h : a.Decides e
  · obtain ⟨-, hact⟩ | ⟨-, ⟨-, hact⟩ | ⟨-, hact⟩⟩ := step_cases h
    all_goals exact hact.fabric
  · exact (step_idle h).fabric

/-! ### The events that reach the limit -/

/-- The event's own mark or fill takes the P&L to the limit or past it. -/
def Reaches (a : App) : HostEvent → Prop
  | .quote bid ask .. => (a.marked bid ask).risk.Breached
  | .fill side qty price => (a.risk.onFill side qty price).Breached
  | .signal .. => False

/-- A decision moves no P&L. -/
theorem actOn_breached : (a.actOn side askedUs).risk.Breached ↔ a.risk.Breached := by
  have hcheck : (a.risk.check (a.feedAge askedUs)).2.Breached ↔ a.risk.Breached := by
    simp only [Risk.check]
    split_ifs <;> exact Iff.rfl
  have hrisk : (a.actOn side askedUs).risk = (a.risk.check (a.feedAge askedUs)).2 := by
    simp only [actOn, setEnabled]
    split_ifs <;> rfl
  rw [hrisk, hcheck]

/-- The P&L after a quote or a fill is that of the mark or the fill. -/
theorem breached_of_reaches {e : HostEvent} (h : a.Reaches e) : (a.step e).risk.Breached := by
  cases e with
  | quote bid ask bidSize askSize tickUs askedUs =>
    cases hf : (a.marked bid ask).fpga with
    | none =>
      simp only [step, onQuote, hf]
      split_ifs
      · exact actOn_breached.mpr h
      · exact h
    | some f =>
      simp only [step, onQuote, hf]
      exact h
  | fill side qty price =>
    simp only [step, onFill]
    cases a.fpga <;> exact h
  | signal => exact h.elim

/-- Beside a fabric, the limit is reached by a mark or a fill. -/
theorem breached_step {e : HostEvent} (hf : a.fpga.isSome = true)
    (h : (a.step e).risk.Breached) : a.Reaches e ∨ a.risk.Breached := by
  obtain ⟨f, hf⟩ := Option.isSome_iff_exists.mp hf
  cases e with
  | quote bid ask bidSize askSize tickUs askedUs =>
    simp only [step, onQuote, marked, hf] at h
    exact .inl h
  | fill side qty price =>
    simp only [step, onFill, hf] at h
    exact .inl h
  | signal seq side tick askedUs =>
    simp only [step, onSignal, hf] at h
    split_ifs at h
    · rw [actOn_breached] at h
      exact .inr h
    · exact .inr h

/-- Beside a fabric, a decision finds the P&L as the event before left it. -/
theorem found_of_decides {e : HostEvent} (hf : a.fpga.isSome = true) (h : a.Decides e) :
    a.found e = a.risk := by
  cases e with
  | quote =>
    rw [h.1] at hf
    cases hf
  | fill => rfl
  | signal => rfl

/-- Beside a fabric, quotes and fills bring no decision. -/
theorem not_decides_of_reaches {e : HostEvent} (hf : a.fpga.isSome = true) (h : a.Reaches e) :
    ¬a.Decides e := by
  cases e with
  | quote =>
    rintro ⟨hnone, -⟩
    rw [hnone] at hf
    cases hf
  | fill => exact id
  | signal => exact h.elim

end App

/-! ### The latch -/

/-- The host program and what is said of it: whether the limit has been exceeded after some event,
and how many orders have been sent since. -/
structure Watch where
  app : App
  hit : Bool
  sent : Nat

namespace Watch

/-- The program has just started. -/
def start (cfg : AppConfig) (fpga : Option Fpga) : Watch where
  app := .create cfg fpga
  hit := false
  sent := 0

/-- An event is handled. -/
def step (w : Watch) (e : HostEvent) : Watch where
  app := w.app.step e
  hit := w.hit || decide (w.app.step e).risk.Breached
  sent := if w.hit then w.sent + ((w.app.step e).sends.length - w.app.sends.length) else 0

/-- No order has been sent since the limit was exceeded. -/
def Silent (w : Watch) : Prop := w.hit = true → w.sent = 0

/-- The limit has been exceeded, and the switch of the fabric is off. -/
def Thrown (w : Watch) : Prop :=
  w.hit = true → w.app.fpga.isSome = true → w.app.word cfgEnable = some 0

/-- **The limit has latched**, if it has been exceeded: no order has been sent since, and
`CFG_ENABLE` has been written 0. -/
def Latched (w : Watch) : Prop := w.Silent ∧ w.Thrown

/-- A decision that comes after the limit has been exceeded finds the P&L still there, or the
program halted, or a stale feed. -/
def Caught (w : Watch) (e : HostEvent) : Prop :=
  w.hit = true → w.app.Decides e → w.app.risk.halted = false →
    (w.app.found e).Breached ∨ (w.app.found e).Stale (w.app.foundAge e)

/-- Beside a fabric, the event does not take the P&L to the limit. -/
def Spared (w : Watch) (e : HostEvent) : Prop := w.app.fpga.isSome = true → ¬w.app.Reaches e

/-- `CFG_ENABLE` is 0 when the program has halted and 1 as long as it has not. -/
def Switched (w : Watch) : Prop :=
  w.app.fpga.isSome = true → w.app.word cfgEnable = some (if w.app.risk.halted then 0 else 1)

/-- Beside a fabric, the limit has not been reached. -/
structure Calm (w : Watch) : Prop where
  hit : w.hit = false
  halted : w.app.risk.halted = false
  unbreached : ¬w.app.risk.Breached

variable {w : Watch} {e : HostEvent}

theorem switched_start (cfg : AppConfig) (fpga : Option Fpga) : (start cfg fpga).Switched := by
  intro hf
  have hf' : fpga.isSome = true := hf
  simp only [start, App.create, App.word, hf', if_true]
  rfl

theorem calm_start (cfg : AppConfig) (fpga : Option Fpga) : (start cfg fpga).Calm := by
  refine ⟨rfl, rfl, ?_⟩
  rintro ⟨hpos, hle⟩
  change 0 < cfg.maxLoss at hpos
  change (0 : Int) + 0 ≤ -cfg.maxLoss at hle
  omega

/-- Without a change to the word, the switch and the halt, `CFG_ENABLE` stays as it is. -/
theorem Switched.keep (hw : w.Switched) (hfabric : (w.app.step e).fpga.isSome = w.app.fpga.isSome)
    (henable : (w.app.step e).word cfgEnable = w.app.word cfgEnable)
    (hhalted : (w.app.step e).risk.halted = w.app.risk.halted) : (w.step e).Switched := by
  intro hf
  have hf' : (w.app.step e).fpga.isSome = true := hf
  change (w.app.step e).word cfgEnable = some (if (w.app.step e).risk.halted then 0 else 1)
  rw [henable, hhalted]
  exact hw (hfabric ▸ hf')

/-- Every event keeps the switch and the halt together. -/
theorem Switched.step (hw : w.Switched) : (w.step e).Switched := by
  by_cases h : w.app.Decides e
  · obtain ⟨-, hact⟩ | ⟨-, ⟨-, hact⟩ | ⟨-, hact⟩⟩ := App.step_cases h
    · intro hf
      change (w.app.step e).word cfgEnable = some (if (w.app.step e).risk.halted then 0 else 1)
      rw [hact.enable hf, hact.halted, if_pos rfl]
    · exact hw.keep hact.fabric hact.enable hact.halted
    · exact hw.keep hact.fabric hact.enable hact.halted
  · have hact := App.step_idle h
    exact hw.keep hact.fabric hact.enable hact.halted

/-! ### No order -/

/-- What is sent after an event, once the limit has been exceeded. -/
theorem silent_step_iff (hhit : w.hit = true) (hs : w.Silent) :
    (w.step e).Silent ↔ (w.app.step e).sends.length - w.app.sends.length = 0 := by
  have hhit' : (w.step e).hit = true := by
    simp only [step, hhit, Bool.true_or]
  have hsent : (w.step e).sent = (w.app.step e).sends.length - w.app.sends.length := by
    simp only [step, hhit, if_true, hs hhit, Nat.zero_add]
  rw [Silent, hsent]
  exact ⟨fun h => h hhit', fun h _ => h⟩

/-- **An event sends no order** just when it is caught. -/
theorem silent_step (hs : w.Silent) : (w.step e).Silent ↔ w.Caught e := by
  cases hhit : w.hit with
  | false =>
    refine iff_of_true (fun _ => ?_) fun hhit' => absurd (hhit.symm.trans hhit') (by decide)
    simp only [step, hhit, Bool.false_eq_true, if_false]
  | true =>
    rw [silent_step_iff hhit hs]
    by_cases h : w.app.Decides e
    · obtain ⟨hfound, hact⟩ | ⟨⟨hh, hb⟩, ⟨hstale, hact⟩ | ⟨hstale, hact⟩⟩ := App.step_cases h
      · -- halted, or halting now
        refine iff_of_true ?_ fun _ _ hh => .inl (hfound.resolve_left ?_)
        · rw [hact.sends, Nat.sub_self]
        · rw [hh]
          decide
      · -- dropped for a stale feed
        refine iff_of_true ?_ fun _ _ _ => .inr hstale
        rw [hact.sends, Nat.sub_self]
      · -- sent
        refine iff_of_false ?_ fun hc => (hc hhit h hh).elim hb hstale
        rw [hact.sends]
        omega
    · have hact := App.step_idle h
      refine iff_of_true ?_ fun _ hd => absurd hd h
      rw [hact.sends, Nat.sub_self]

/-! ### The switch -/

/-- As long as the limit is not reached, the program goes on. -/
theorem Calm.step (hw : w.Calm) (hf : w.app.fpga.isSome = true) (hs : w.Spared e) :
    (w.step e).Calm := by
  have hb : ¬(w.app.step e).risk.Breached := fun hb =>
    (App.breached_step hf hb).elim (hs hf) hw.unbreached
  refine ⟨?_, ?_, hb⟩
  · simp only [Watch.step, hw.hit, hb, Bool.false_or, decide_false]
  · change (w.app.step e).risk.halted = false
    by_cases h : w.app.Decides e
    · obtain ⟨hfound, -⟩ | ⟨-, ⟨-, hact⟩ | ⟨-, hact⟩⟩ := App.step_cases h
      · rw [App.found_of_decides hf h, hw.halted] at hfound
        exact absurd (hfound.resolve_left (by decide)) hw.unbreached
      · exact hact.halted.trans hw.halted
      · exact hact.halted.trans hw.halted
    · exact (App.step_idle h).halted.trans hw.halted

/-- **The switch is off once the limit is exceeded** just when no event takes the P&L there. -/
theorem thrown_step (hw : w.Switched) (hc : w.app.fpga.isSome = true → w.Calm) :
    (w.step e).Thrown ↔ w.Spared e := by
  constructor
  · intro ht hf hreaches
    -- the event is a mark or a fill, so nothing looks at the limit, and the switch stays on
    have hact := App.step_idle (App.not_decides_of_reaches hf hreaches)
    have hhit : (w.step e).hit = true := by
      simp only [Watch.step, App.breached_of_reaches hreaches, decide_true, Bool.or_true]
    have hzero : (w.app.step e).word cfgEnable = some 0 := ht hhit (hact.fabric.trans hf)
    rw [hact.enable, hw hf, (hc hf).halted] at hzero
    exact absurd hzero (by decide)
  · intro hs hhit hf
    have hf' : w.app.fpga.isSome = true := (App.fabric_step w.app e).symm.trans hf
    rw [((hc hf').step hf' hs).hit] at hhit
    cases hhit

end Watch

/-- The limit as far as it concerns orders. -/
theorem silent_iff (cfg : AppConfig) (fpga : Option Fpga) (l : List HostEvent) :
    Trace.Always Watch.step Watch.Silent (.start cfg fpga) l ↔
      Trace.Each Watch.step Watch.Caught (.start cfg fpga) l := by
  refine Trace.always_iff_each (I := fun _ => True) (fun _ _ _ => trivial)
    (fun w e _ hs => Watch.silent_step hs) trivial ?_
  intro hhit
  cases hhit

/-- The limit as far as it concerns the switch. -/
theorem thrown_iff (cfg : AppConfig) (fpga : Option Fpga) (l : List HostEvent) :
    Trace.Always Watch.step Watch.Thrown (.start cfg fpga) l ↔
      Trace.Each Watch.step Watch.Spared (.start cfg fpga) l := by
  refine Trace.always_iff_each_of
    (I := fun w => w.Switched ∧ (w.app.fpga.isSome = true → w.Calm)) ?_
    (fun w e hw => Watch.thrown_step hw.1 hw.2)
    ⟨Watch.switched_start cfg fpga, fun _ => Watch.calm_start cfg fpga⟩ ?_
  · rintro w e ⟨hw, hc⟩ hs
    refine ⟨hw.step, fun hf => ?_⟩
    have hf' : w.app.fpga.isSome = true := (App.fabric_step w.app e).symm.trans hf
    exact (hc hf').step hf' hs
  · intro hhit
    cases hhit

/-- **The loss limit.** In a run of the host program no order follows the limit just when every
decision that comes after it has been exceeded finds the P&L at the limit or past it, or a stale
feed, until the program has halted. The switch of a fabric is off from then on just when no mark or
fill ever takes the P&L there. The limit latches just when both are so. -/
theorem loss_limit_latches (cfg : AppConfig) (fpga : Option Fpga) (l : List HostEvent) :
    (Trace.Always Watch.step Watch.Latched (.start cfg fpga) l ↔
      Trace.Each Watch.step Watch.Caught (.start cfg fpga) l ∧
        Trace.Each Watch.step Watch.Spared (.start cfg fpga) l) ∧
    (Trace.Always Watch.step Watch.Silent (.start cfg fpga) l ↔
      Trace.Each Watch.step Watch.Caught (.start cfg fpga) l) := by
  have hsilent := silent_iff cfg fpga l
  refine ⟨?_, hsilent⟩
  rw [← hsilent, ← thrown_iff]
  exact Trace.always_and

/-- **A limit that un-trips itself.** One lot is bought at 100 with a limit of 50. The mid falls to
40, which is past the limit, and is back at 100 before the fabric decides: the order is sent, and
the switch is on. -/
theorem not_loss_limit_latches : ¬∀ (cfg : AppConfig) (fpga : Option Fpga) (l : List HostEvent),
    0 < cfg.maxLoss → Trace.Always Watch.step Watch.Latched (.start cfg fpga) l := by
  intro hall
  obtain ⟨hsilent, -⟩ := hall ⟨1000, 5, 0, 50, 60000⟩ (some ⟨0, 0, 0⟩)
    [.fill fillBought 1 100, .quote 40 40 1 1 1 1, .quote 100 100 1 1 2 2, .signal 1 signalBuy 4 3]
    (by decide) _ List.prefix_rfl
  have hsent : (0 : Nat) = 1 := (hsilent (by decide)).symm.trans (by decide)
  cases hsent

end Fmma
