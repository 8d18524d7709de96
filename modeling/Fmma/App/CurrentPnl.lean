import Fmma.App.Accounting
import Fmma.App.LossLimit

/-!
# The P&L a decision is checked against

`fmma_risk_on_fill` moves the position and the average price, `fmma_risk_mark` the unrealised P&L.
Only a quote marks, so that a decision of the fabric that follows a fill is checked against the
realised P&L of the new position and the unrealised P&L of the old one.
-/

namespace Fmma

namespace Risk

variable {r r' : Risk} {t : Trade} {mid : Int}

/-- What the inventory is worth at `mid` over what it has cost. -/
def worth (r : Risk) (mid : Int) : Int := (mid - r.avgPrice) * r.position

/-- How far a fill moves that. -/
def shift (r : Risk) (t : Trade) (mid : Int) : Int :=
  if t.qty = 0 then 0
  else if r.Adds t then t.signed * (mid - r.avgPrice) -
    (r.position + t.signed) * ((r.cost t).tdiv (r.units t) - r.avgPrice)
  else if |t.signed| ≤ |r.position| then t.signed * (mid - r.avgPrice)
  else (r.position + t.signed) * (mid - t.price) - r.position * (mid - r.avgPrice)

theorem worth_book (r : Risk) (t : Trade) (mid : Int) :
    (r.book t).worth mid = r.worth mid + r.shift t mid := by
  by_cases hq : t.qty = 0
  · rw [book_of_zero hq, shift, if_pos hq, add_zero]
  · have hbooked : Booked r t (r.book t) := booked hq
    rw [shift, if_neg hq]
    generalize r.book t = r' at hbooked
    cases hbooked with
    | adds hadd =>
      rw [if_pos hadd]
      simp only [worth]
      ring
    | reduces hacross hpart =>
      rw [if_neg hacross.not_adds, if_pos hpart.le]
      simp only [worth]
      ring
    | flattens hx hall =>
      have heq : |t.signed| ≤ |r.position| := by
        rw [eq_neg_of_add_eq_zero_right hall, abs_neg]
      rw [if_neg (across_of_add_eq_zero hx hall).not_adds, if_pos heq]
      simp only [worth]
      linear_combination (r.avgPrice - mid) * hall
    | flips hacross =>
      have hgt : ¬|t.signed| ≤ |r.position| := by
        unfold Across at hacross
        grind
      rw [if_neg hacross.of_add.not_adds, if_neg hgt]
      simp only [worth]
      ring

/-- The same books, up to what only the check looks at. -/
structure SameBook (r r' : Risk) : Prop where
  position : r'.position = r.position
  avgPrice : r'.avgPrice = r.avgPrice
  realised : r'.realised = r.realised
  unrealised : r'.unrealised = r.unrealised

theorem SameBook.refl (r : Risk) : SameBook r r := ⟨rfl, rfl, rfl, rfl⟩

theorem sameBook_check (r : Risk) (feedAgeUs : Nat) : SameBook r (r.check feedAgeUs).2 := by
  unfold check
  split_ifs
  all_goals exact ⟨rfl, rfl, rfl, rfl⟩

/-- What `fmma_risk_mark` leaves out where it takes the average price for unknown. -/
def unmarked (r : Risk) (mid : Int) : Int := if r.avgPrice = 0 then r.worth mid else 0

theorem worth_mark (r : Risk) (mid : Int) :
    (r.mark mid).worth mid = (r.mark mid).unrealised + r.unmarked mid := by
  unfold mark unmarked
  by_cases havg : r.avgPrice = 0
  · rw [if_pos (.inr havg), if_pos havg]
    exact (zero_add _).symm
  · rw [if_neg havg, add_zero]
    split_ifs with h
    · have hx : r.position = 0 := h.resolve_right havg
      simp [worth, hx]
    · rfl

end Risk

namespace App

/-- The mid that the P&L should be marked to when a decision is checked. -/
def foundMid (a : App) : HostEvent → Int
  | .quote bid ask .. => (a.marked bid ask).lastMid
  | .fill .. | .signal .. => a.lastMid

variable {a : App}

/-- The check moves neither the books nor the mid. -/
theorem actOn_book {r : Risk} {mid : Int} (side : Word) (askedUs : Nat) (hrisk : a.risk = r)
    (hmid : a.lastMid = mid) :
    r.SameBook (a.actOn side askedUs).risk ∧ (a.actOn side askedUs).lastMid = mid := by
  have hsame := Risk.sameBook_check a.risk (a.feedAge askedUs)
  subst hrisk hmid
  simp only [actOn, setEnabled]
  split_ifs
  all_goals exact ⟨hsame, rfl⟩

theorem onQuote_book (bid ask bidSize askSize : Word) (tickUs askedUs : Nat) :
    (a.marked bid ask).risk.SameBook (a.onQuote bid ask bidSize askSize tickUs askedUs).risk ∧
      (a.onQuote bid ask bidSize askSize tickUs askedUs).lastMid = (a.marked bid ask).lastMid := by
  simp only [onQuote]
  cases (a.marked bid ask).fpga with
  | none =>
    simp only
    split_ifs
    · exact actOn_book _ _ rfl rfl
    · exact ⟨.refl _, rfl⟩
  | some f => exact ⟨.refl _, rfl⟩

theorem onFill_book (side qty : Word) (price : Int) :
    (a.onFill side qty price).risk = a.risk.book ⟨side, qty, price⟩ ∧
      (a.onFill side qty price).lastMid = a.lastMid := by
  simp only [onFill]
  cases a.fpga with
  | none | some f => exact ⟨rfl, rfl⟩

theorem onSignal_book (seq side tick : Word) (askedUs : Nat) :
    a.risk.SameBook (a.onSignal seq side tick askedUs).risk ∧
      (a.onSignal seq side tick askedUs).lastMid = a.lastMid := by
  simp only [onSignal]
  cases a.fpga with
  | none => exact ⟨.refl _, rfl⟩
  | some f =>
    simp only
    split_ifs
    · exact actOn_book _ _ rfl rfl
    · exact ⟨.refl _, rfl⟩

/-- The program halts at a decision that finds the limit reached, and at no other. -/
theorem halted_step {e : HostEvent} (h : a.Decides e) (hh : a.risk.halted = false) :
    (a.step e).risk.halted = true ↔ (a.found e).Breached := by
  obtain ⟨hfound, hact⟩ | ⟨⟨-, hb⟩, ⟨-, hact⟩ | ⟨-, hact⟩⟩ := step_cases h
  · exact iff_of_true hact.halted (hfound.resolve_left (by rw [hh]; decide))
  · refine iff_of_false ?_ hb
    rw [hact.halted, hh]
    decide
  · refine iff_of_false ?_ hb
    rw [hact.halted, hh]
    decide

end App

/-- The host program, and by how much the worth of the inventory at the last mid has moved since
the last mark. -/
structure Drifting where
  app : App
  drift : Int

namespace Drifting

/-- The program has just started. -/
def start (cfg : AppConfig) (fpga : Option Fpga) : Drifting where
  app := .create cfg fpga
  drift := 0

/-- An event is handled. -/
def step (w : Drifting) (e : HostEvent) : Drifting where
  app := w.app.step e
  drift :=
    match e with
    | .quote .. => w.app.risk.unmarked (w.app.foundMid e)
    | .fill side qty price => w.drift + w.app.risk.shift ⟨side, qty, price⟩ w.app.lastMid
    | .signal .. => w.drift

/-- The drift is what the unrealised P&L lacks. -/
def Tracked (w : Drifting) : Prop :=
  w.app.risk.worth w.app.lastMid = w.app.risk.unrealised + w.drift

/-- **A decision is checked on the current P&L**: the P&L it finds is that of the books at the
last mid, and the program halts on it just when that has reached the limit. -/
def Current (w : Drifting) (e : HostEvent) : Prop :=
  w.app.Decides e →
    let r := w.app.found e
    r.pnl = r.equity (w.app.foundMid e) ∧
      (w.app.risk.halted = false → ((w.app.step e).risk.halted = true ↔
        0 < r.maxLoss ∧ r.equity (w.app.foundMid e) ≤ -r.maxLoss))

/-- The drift when a decision is checked. No fill lies between a quote and what the software
decides on it. -/
def foundDrift (w : Drifting) (e : HostEvent) : Int :=
  match e with
  | .quote .. => w.app.risk.unmarked (w.app.foundMid e)
  | .fill .. | .signal .. => w.drift

/-- The fills since the last quote leave the worth of the inventory at its mid where it was. -/
def Settled (w : Drifting) (e : HostEvent) : Prop := w.app.Decides e → w.foundDrift e = 0

variable {w : Drifting} {e : HostEvent}

theorem tracked_start (cfg : AppConfig) (fpga : Option Fpga) : (start cfg fpga).Tracked := by
  simp [Tracked, start, App.create, Risk.init, Risk.worth]

theorem worth_of_sameBook {r r' : Risk} (h : r.SameBook r') (mid : Int) :
    r'.worth mid = r.worth mid := by
  rw [Risk.worth, Risk.worth, h.position, h.avgPrice]

/-- **Every event keeps track.** -/
theorem Tracked.step (hw : w.Tracked) : (w.step e).Tracked := by
  unfold Tracked at hw ⊢
  cases e with
  | quote bid ask bidSize askSize tickUs askedUs =>
    obtain ⟨hsame, hmid⟩ := App.onQuote_book (a := w.app) bid ask bidSize askSize tickUs askedUs
    simp only [Drifting.step, App.step, App.foundMid]
    -- the mark takes up all but what it leaves out
    rw [worth_of_sameBook hsame, hsame.unrealised, hmid]
    exact Risk.worth_mark w.app.risk _
  | fill side qty price =>
    obtain ⟨hrisk, hmid⟩ := App.onFill_book (a := w.app) side qty price
    simp only [Drifting.step, App.step]
    -- `unrealised` stays, so the drift takes up the whole shift
    rw [hrisk, hmid, Risk.worth_book, hw, Risk.unrealised_book]
    exact add_assoc _ _ _
  | signal seq side tick askedUs =>
    obtain ⟨hsame, hmid⟩ := App.onSignal_book (a := w.app) seq side tick askedUs
    simp only [Drifting.step, App.step]
    rw [worth_of_sameBook hsame, hsame.unrealised, hmid, hw]

/-- The P&L that a decision finds is short of the current one by the drift. -/
theorem equity_found (hw : w.Tracked) (h : w.app.Decides e) :
    (w.app.found e).equity (w.app.foundMid e) = (w.app.found e).pnl + w.foundDrift e := by
  cases e with
  | quote bid ask bidSize askSize tickUs askedUs =>
    have hmark := Risk.worth_mark w.app.risk (w.app.marked bid ask).lastMid
    simp only [App.found, App.foundMid, Risk.equity, Risk.pnl]
    rw [add_assoc]
    exact congrArg _ hmark
  | fill => exact h.elim
  | signal seq side tick askedUs =>
    simp only [App.found, App.foundMid, Risk.equity, Risk.pnl]
    rw [add_assoc]
    exact congrArg _ hw

/-- **A decision is checked on the current P&L just when nothing has drifted.** -/
theorem current_iff_settled (hw : w.Tracked) : w.Current e ↔ w.Settled e := by
  refine forall_congr' fun h => ?_
  have hequity := equity_found hw h
  constructor
  · rintro ⟨hpnl, -⟩
    rw [← hpnl] at hequity
    exact left_eq_add.mp hequity
  · intro hzero
    have hpnl : (w.app.found e).pnl = (w.app.found e).equity (w.app.foundMid e) := by
      rw [hequity]
      exact left_eq_add.mpr hzero
    refine ⟨hpnl, fun hh => ?_⟩
    rw [App.halted_step h hh, ← hpnl]
    rfl

end Drifting

/-- **The P&L of a decision.** In a run of the host program every decision is checked on the
current P&L just when, at each decision, the fills since the last quote leave the worth of the
inventory at its mid where it was. -/
theorem decisions_current_iff (cfg : AppConfig) (fpga : Option Fpga) (l : List HostEvent) :
    Trace.Each Drifting.step Drifting.Current (.start cfg fpga) l ↔
      Trace.Each Drifting.step Drifting.Settled (.start cfg fpga) l := by
  refine Trace.each_congr_of (fun w e hw => Drifting.Tracked.step hw)
    (fun w e hw => Drifting.current_iff_settled hw) (Drifting.tracked_start cfg fpga)

/-- **A loss that is counted twice.** One lot is bought at 100 and the mid falls to 40. The lot is
sold at 40, and the fabric decides before the next quote: the loss of 60 is realised by then, and
still there as unrealised, which is past the limit of 100. -/
theorem not_decisions_current : ¬∀ (cfg : AppConfig) (fpga : Option Fpga) (l : List HostEvent),
    cfg.startPosition = 0 → Trace.Each Drifting.step Drifting.Current (.start cfg fpga) l := by
  intro hall
  have hcurrent := hall ⟨1000, 5, 0, 100, 60000⟩ (some ⟨0, 0, 0⟩)
    [.fill fillBought 1 100, .quote 40 40 1 1 1 1, .fill fillSold 1 40, .signal 1 signalBuy 2 3]
    rfl [.fill fillBought 1 100, .quote 40 40 1 1 1 1, .fill fillSold 1 40] _ List.prefix_rfl
  have hpnl : (-120 : Int) = -60 := (hcurrent (by decide)).1
  exact absurd hpnl (by decide)

end Fmma
