import Fmma.App.ExecutedQuantity
import Fmma.Lib.Trace

/-!
# Whose response it is

The executor with its connections to the broker, in any interleaving of their events with the calls
of the event loop. A connection only knows the index of a slot, and slots are used again: what it is
about is kept beside the state, as the number of the order it was opened for.
-/

namespace Fmma

namespace Exec

open Json

variable {e : Exec} {slot s : Slot} {callback : Callback} {ev : ConnEvent}

/-! ### What one event may do -/

theorem modify_of_ne (e : Exec) (f : Pending → Pending) (h : s ≠ slot) :
    (e.modify slot f).pending s = e.pending s := Function.update_of_ne h ..

/-- What an event on a connection of a slot may do: it leaves the other slots alone, and ends the
order of its own slot when it reports a fill. -/
structure Handles (e : Exec) (slot : Slot) (e' : Exec) : Prop where
  others : ∀ s ≠ slot, e'.pending s = e.pending s
  side : (e'.pending slot).side = (e.pending slot).side
  active : (e'.pending slot).active = true → (e.pending slot).active = true
  fills : e'.fills = e.fills ∨ ∃ qty price,
    e'.fills = (fillOf (e.pending slot).side, qty, price) :: e.fills ∧
      (e.pending slot).active = true ∧ (e'.pending slot).active = false

theorem Handles.refl (e : Exec) (slot : Slot) : Handles e slot e :=
  ⟨fun _ _ => rfl, rfl, id, .inl rfl⟩

/-- A change of the slot that keeps its side and does not make it active. -/
theorem Handles.modify {e' : Exec} (h : Handles e slot e') {f : Pending → Pending}
    (hside : ∀ p, (f p).side = p.side) (hactive : ∀ p, (f p).active = true → p.active = true) :
    Handles e slot (e'.modify slot f) where
  others s hs := (e'.modify_of_ne f hs).trans (h.others s hs)
  side := by rw [modify_pending, hside, h.side]
  active := by
    rw [modify_pending]
    exact fun hf => h.active (hactive _ hf)
  fills := by
    rcases h.fills with hf | ⟨qty, price, hf, hbefore, hafter⟩
    · exact .inl hf
    · refine .inr ⟨qty, price, hf, hbefore, ?_⟩
      rw [modify_pending, Bool.eq_false_iff]
      exact fun hc => Bool.false_ne_true (hafter.symm.trans (hactive _ hc))

theorem Handles.settle {e' : Exec} (h : Handles e slot e') (hfills : e'.fills = e.fills)
    (status : Text) (price : Int) (qty : Word) :
    Handles e slot (e'.settle slot status price qty) := by
  cases hactive : (e'.pending slot).active with
  | false =>
    have hsame : e'.settle slot status price qty = e' := by
      rw [Exec.settle, hactive, if_neg Bool.false_ne_true]
    rwa [hsame]
  | true =>
    obtain ⟨hover, hreport⟩ := settle_spec hactive status price qty
    refine ⟨fun s hs => ?_, ?_, fun hc => absurd (hover.symm.trans hc) Bool.false_ne_true, ?_⟩
    · rw [Exec.settle, if_pos hactive, modify_of_ne _ _ hs, ← h.others s hs]
      split_ifs <;> rfl
    · rw [Exec.settle, if_pos hactive, modify_pending, ← h.side]
      split_ifs <;> rfl
    · rw [hfills, h.side] at hreport
      by_cases hfilled : status = Text.filled
      · rw [if_pos hfilled] at hreport
        exact .inr ⟨qty, price, hreport, h.active hactive, hover⟩
      · rw [if_neg hfilled] at hreport
        exact .inl hreport

theorem handles_deliver (e : Exec) (slot : Slot) (callback : Callback) (ev : ConnEvent) :
    Handles e slot (e.deliver slot callback ev) := by
  have hover : Handles e slot (e.modify slot fun p => { p with active := false }) :=
    (Handles.refl e slot).modify (fun _ => rfl) fun _ hc => absurd hc Bool.false_ne_true
  have hdone : ∀ {e' : Exec}, Handles e slot e' →
      Handles e slot (e'.modify slot fun p => { p with queryInFlight := false }) :=
    fun h => h.modify (fun _ => rfl) fun _ hc => hc
  cases callback with
  | order =>
    cases ev with
    | connect | close => exact Handles.refl e slot
    | error => exact hover
    | httpMsg status bytes =>
      simp only [deliver, orderCb]
      split_ifs with hok hterm
      · refine Handles.settle ?_ ?_ _ _ _
        · exact (Handles.refl e slot).modify (fun _ => rfl) fun _ hc => hc
        · rfl
      · exact (Handles.refl e slot).modify (fun _ => rfl) fun _ hc => hc
      · exact hover
  | query =>
    cases ev with
    | connect => exact Handles.refl e slot
    | error | close => exact hdone (Handles.refl e slot)
    | httpMsg status bytes =>
      simp only [deliver, queryCb]
      generalize (if copyString (bodyText bytes) Text.filledQty 32 = some ['0'] then (0 : Word)
        else 1) = qty
      refine hdone ?_
      split_ifs with hterm hqty
      · exact (Handles.refl e slot).settle rfl _ _ _
      · exact hover
      · exact Handles.refl e slot

/-- The event finds nothing to do to an order that is still followed. -/
def Harmless (p : Pending) : Callback → ConnEvent → Prop
  | _, .connect => True
  | .order, .close => True
  | .order, .error => False
  | .order, .httpMsg status bytes =>
    (200 ≤ status ∧ status < 300) ∧ statusIsTerminal (statusText (bodyText bytes)) = false ∧
      (copyString (bodyText bytes) Text.id 48).getD Text.noId = p.id
  | .query, .error | .query, .close => p.queryInFlight = false
  | .query, .httpMsg _ bytes =>
    statusIsTerminal (statusText (bodyText bytes)) = false ∧ p.queryInFlight = false

/-- The same order, as far as it is followed. -/
structure Same (p q : Pending) : Prop where
  active : q.active = p.active
  id : q.id = p.id
  side : q.side = p.side
  queryInFlight : q.queryInFlight = p.queryInFlight

/-- **One event.** It leaves an order that is still followed as it is just when it finds nothing to
do to it. -/
theorem same_deliver_iff (hactive : (e.pending slot).active = true) :
    Same (e.pending slot) ((e.deliver slot callback ev).pending slot) ↔
      Harmless (e.pending slot) callback ev := by
  have hover : ∀ {q : Pending}, q.active = false → ¬Same (e.pending slot) q :=
    fun hq h => Bool.false_ne_true (hq.symm.trans (h.active.trans hactive))
  cases callback with
  | order =>
    cases ev with
    | connect | close => exact iff_of_true ⟨rfl, rfl, rfl, rfl⟩ trivial
    | error =>
      refine iff_of_false (hover ?_) id
      simp only [deliver, orderCb, modify_pending]
    | httpMsg status bytes =>
      simp only [deliver, orderCb, Harmless]
      by_cases hok : 200 ≤ status ∧ status < 300
      · rw [if_pos hok, and_iff_right hok]
        cases hterm : statusIsTerminal (statusText (bodyText bytes)) with
        | true =>
          refine iff_of_false (hover ?_) fun h => absurd h.1 (by decide)
          rw [if_pos rfl]
          exact (settle_spec (by rw [modify_pending, hactive]) _ _ _).1
        | false =>
          rw [if_neg Bool.false_ne_true, modify_pending, and_iff_right rfl]
          exact ⟨fun h => h.id, fun h => ⟨rfl, h, rfl, rfl⟩⟩
      · rw [if_neg hok]
        refine iff_of_false (hover ?_) fun h => hok h.1
        rw [modify_pending]
  | query =>
    cases ev with
    | connect => exact iff_of_true ⟨rfl, rfl, rfl, rfl⟩ trivial
    | error | close =>
      simp only [deliver, queryCb, Harmless, modify_pending]
      exact ⟨fun h => h.queryInFlight.symm, fun h => ⟨rfl, rfl, rfl, h.symm⟩⟩
    | httpMsg status bytes =>
      simp only [deliver, queryCb, Harmless, modify_pending]
      cases hterm : statusIsTerminal (statusText (bodyText bytes)) with
      | true =>
        refine iff_of_false (hover ?_) fun h => absurd h.1 (by decide)
        generalize (if copyString (bodyText bytes) Text.filledQty 32 = some ['0'] then (0 : Word)
          else 1) = qty
        rw [if_pos rfl]
        split_ifs with hqty
        · exact (settle_spec hactive _ _ _).1
        · exact congrArg Pending.active (modify_pending _ _ _)
      | false =>
        rw [if_neg Bool.false_ne_true, and_iff_right rfl]
        exact ⟨fun h => h.queryInFlight.symm, fun h => ⟨rfl, rfl, rfl, h.symm⟩⟩

/-! ### What the calls may do -/

/-- What the calls of the event loop may do to the orders: none is followed that was not, and no
fill is reported. -/
structure Polls (e e' : Exec) : Prop where
  side : ∀ s, (e'.pending s).side = (e.pending s).side
  active : ∀ s, (e'.pending s).active = true → (e.pending s).active = true
  fills : e'.fills = e.fills

theorem Polls.refl (e : Exec) : Polls e e := ⟨fun _ => rfl, fun _ => id, rfl⟩

theorem Polls.trans {e₁ e₂ e₃ : Exec} (h : Polls e₁ e₂) (h' : Polls e₂ e₃) : Polls e₁ e₃ :=
  ⟨fun s => (h'.side s).trans (h.side s), fun s => h.active s ∘ h'.active s,
    h'.fills.trans h.fills⟩

theorem polls_modify (e : Exec) (slot : Slot) {f : Pending → Pending}
    (hside : ∀ p, (f p).side = p.side) (hactive : ∀ p, (f p).active = true → p.active = true) :
    Polls e (e.modify slot f) := by
  refine ⟨fun s => ?_, fun s => ?_, rfl⟩
  · by_cases hs : s = slot
    · rw [hs, modify_pending, hside]
    · rw [modify_of_ne e f hs]
  · by_cases hs : s = slot
    · rw [hs, modify_pending]
      exact hactive _
    · rw [modify_of_ne e f hs]
      exact id

theorem polls_pollSlot (e : Exec) (now : BitVec 64) (opened : Bool) (i : Slot) :
    Polls e (e.pollSlot now opened i).2 := by
  have hpoll : Polls e (e.modify i fun p => { p with lastPollUs := now }) :=
    polls_modify e i (fun _ => rfl) fun _ h => h
  simp only [pollSlot]
  split_ifs
  · exact Polls.refl e
  · exact Polls.refl e
  · dsimp only
    refine hpoll.trans (polls_modify _ i ?_ ?_)
    · exact fun _ => rfl
    · exact fun _ h => absurd h Bool.false_ne_true
  · dsimp only
    refine hpoll.trans (polls_modify _ i ?_ ?_)
    · exact fun _ => rfl
    · exact fun _ h => h
  · exact hpoll

theorem polls_poll (e : Exec) (now : BitVec 64) (opened : Slot → Bool) :
    Polls e (e.poll now opened).2 := by
  have hfold : ∀ (l : List Slot) (a : List Slot × Exec), Polls e a.2 →
      Polls e (l.foldl (fun a i =>
        (if (a.2.pollSlot now (opened i) i).1 then i :: a.1 else a.1,
          (a.2.pollSlot now (opened i) i).2)) a).2 := by
    intro l
    induction l with
    | nil => exact fun _ h => h
    | cons i l ih => exact fun a h => ih _ (h.trans (polls_pollSlot a.2 now (opened i) i))
  exact hfold (List.finRange 8) ([], e) (Polls.refl e)

/-- What sending an order may do: it takes a free slot, and nothing else changes of the others. -/
structure Sends (e : Exec) (side : Word) (slot : Option Slot) (e' : Exec) : Prop where
  fills : e'.fills = e.fills
  free : ∀ s ∈ slot, (e.pending s).active = false
  side : ∀ s ∈ slot, (e'.pending s).side = side
  others : ∀ s, s ∉ slot → (e'.pending s).active = true → e'.pending s = e.pending s

theorem sends_send (e : Exec) (side : Word) (mark : Int) (nowMs nowUs : BitVec 64)
    (opened : Bool) :
    Sends e side (e.send side mark nowMs nowUs opened).1
      (e.send side mark nowMs nowUs opened).2 := by
  have hnone : ∀ {e' : Exec}, e'.fills = e.fills →
      (∀ s, (e'.pending s).active = true → e'.pending s = e.pending s) → Sends e side none e' := by
    intro e' hfills hothers
    refine ⟨hfills, ?_, ?_, fun s _ => hothers s⟩
    · rintro s ⟨⟩
    · rintro s ⟨⟩
  have hsame : Sends e side none e := hnone rfl fun _ _ => rfl
  have hlater : Sends e side none { e with lastOrderMs := nowMs } := hnone rfl fun _ _ => rfl
  simp only [send]
  cases halloc : e.slotAlloc with
  | none =>
    dsimp only
    split_ifs
    · exact hsame
    · exact hlater
    · exact hsame
    · exact hsame
  | some slot =>
    dsimp only
    have hfree : (e.pending slot).active = false := by
      have hfound := List.find?_some halloc
      simpa using hfound
    split_ifs
    · exact hsame
    · exact hlater
    · exact hsame
    · refine ⟨rfl, ?_, ?_, fun s hs _ => ?_⟩
      · rintro s ⟨⟩
        exact hfree
      · rintro s ⟨⟩
        rw [modify_pending]
      · have hne : s ≠ slot := by
          rintro rfl
          exact hs rfl
        rw [modify_of_ne _ _ hne]
    · refine hnone ?_ fun s hc => ?_
      · rfl
      · by_cases hs : s = slot
        · rw [hs, modify_pending] at hc
          exact absurd hc Bool.false_ne_true
        · rw [modify_of_ne _ _ hs, modify_of_ne _ _ hs]

end Exec

/-! ### The executor and the broker -/

open Exec

/-- A connection to the broker: its context, the order it was opened for, and whether its message
and its end have come. -/
structure Conn where
  slot : Slot
  callback : Callback
  order : ℕ
  answered : Bool
  closed : Bool

/-- A call of `on_fill`: the order of the connection it was made for, the order that had the slot,
and the side. -/
structure Report where
  cause : ℕ
  owner : ℕ
  side : Word

/-- The executor and its connections; beside it the sides of the orders sent so far, the order a
slot was last given to, and the fills that were reported. -/
structure Broker where
  exec : Exec
  conns : List Conn
  sides : List Word
  owner : Slot → ℕ
  reports : List Report

/-- What happens: a call of the event loop, or an event on a connection. -/
inductive BrokerEvent
  | send (side : Word) (mark : Int) (nowMs nowUs : BitVec 64) (opened : Bool)
  | poll (now : BitVec 64) (opened : Slot → Bool)
  | conn (k : ℕ) (ev : ConnEvent)

namespace ConnEvent

def isMessage : ConnEvent → Bool
  | .httpMsg .. => true
  | _ => false

def isClose : ConnEvent → Bool
  | .close => true
  | _ => false

end ConnEvent

/-- mongoose delivers the event: not after `CLOSE`, and one message at most. -/
def Conn.delivers (c : Conn) (ev : ConnEvent) : Bool := !c.closed && !(c.answered && ev.isMessage)

namespace Broker

/-- After `fmma_exec_create`. -/
def start (cfg : ExecConfig) (haveCredentials : Bool) : Broker where
  exec := .create cfg haveCredentials
  conns := []
  sides := []
  owner := fun _ => 0
  reports := []

/-- A connection for the order of a slot. -/
def connect (b : Broker) (callback : Callback) (slot : Slot) : Conn :=
  ⟨slot, callback, b.owner slot, false, false⟩

/-- An order is sent. -/
def sent (b : Broker) (side : Word) : Option Slot × Exec → Broker
  | (none, e) => { b with exec := e }
  | (some slot, e) =>
    let b := { b with
      exec := e
      sides := b.sides ++ [side]
      owner := Function.update b.owner slot b.sides.length }
    { b with conns := b.conns ++ [b.connect .order slot] }

/-- The orders are polled. -/
def polled (b : Broker) (r : List Slot × Exec) : Broker :=
  { b with
    exec := r.2
    conns := b.conns ++ r.1.reverse.map (b.connect .query) }

/-- An event comes on a connection. -/
def heard (b : Broker) (k : ℕ) (c : Conn) (ev : ConnEvent) : Broker :=
  let e := b.exec.deliver c.slot c.callback ev
  { b with
    exec := e
    conns := b.conns.set k { c with
      answered := c.answered || ev.isMessage
      closed := c.closed || ev.isClose }
    reports := (e.fills.take (e.fills.length - b.exec.fills.length)).map
      (fun f => ⟨c.order, b.owner c.slot, f.1⟩) ++ b.reports }

/-- What happens, happens. -/
def step (b : Broker) : BrokerEvent → Broker
  | .send side mark nowMs nowUs opened => b.sent side (b.exec.send side mark nowMs nowUs opened)
  | .poll now opened => b.polled (b.exec.poll now opened)
  | .conn k ev =>
    match b.conns[k]? with
    | none => b
    | some c => if c.delivers ev then b.heard k c ev else b

/-- The event changes nothing of an order that is not the one its connection was opened for. -/
def Attributed (b : Broker) (ev : BrokerEvent) : Prop :=
  ∀ k ce c, ev = .conn k ce → b.conns[k]? = some c → ∀ s, (b.exec.pending s).active = true →
    b.owner s ≠ c.order → Same (b.exec.pending s) ((b.step ev).exec.pending s)

/-- Every fill was reported for the order whose side it has, and once for each order. -/
structure Accounted (b : Broker) : Prop where
  own : ∀ r ∈ b.reports, r.owner = r.cause ∧
    ∃ side, b.sides[r.cause]? = some side ∧ r.side = fillOf side
  once : ∀ n, b.reports.countP (·.cause = n) ≤ 1

/-- The event comes while the slot is free or still has the order of the connection, or it finds
nothing to do to the order that has it now. -/
def Fresh (b : Broker) (ev : BrokerEvent) : Prop :=
  ∀ k ce c, ev = .conn k ce → b.conns[k]? = some c → c.delivers ce = true →
    (b.exec.pending c.slot).active = true → b.owner c.slot ≠ c.order →
    Harmless (b.exec.pending c.slot) c.callback ce

variable {b : Broker} {be : BrokerEvent}

theorem step_conn {k : ℕ} {c : Conn} {ev : ConnEvent} (hk : b.conns[k]? = some c) :
    b.step (.conn k ev) = if c.delivers ev then b.heard k c ev else b := by
  simp only [step, hk]

/-- There is no such connection. -/
theorem step_conn_none {k : ℕ} {ev : ConnEvent} (hk : b.conns[k]? = none) :
    b.step (.conn k ev) = b := by
  simp only [step, hk]

/-- **One event is attributed** just when it is fresh. -/
theorem attributed_iff (b : Broker) (be : BrokerEvent) : b.Attributed be ↔ b.Fresh be := by
  constructor
  · rintro h k ce c rfl hk hdelivers hactive hother
    have hsame := h k ce c rfl hk c.slot hactive hother
    rw [step_conn hk, if_pos hdelivers] at hsame
    exact (same_deliver_iff hactive).mp hsame
  · rintro h k ce c rfl hk s hactive hother
    rw [step_conn hk]
    split_ifs with hdelivers
    · change Same _ ((b.exec.deliver c.slot c.callback ce).pending s)
      by_cases hs : s = c.slot
      · rw [hs] at hactive hother ⊢
        exact (same_deliver_iff hactive).mpr (h k ce c rfl hk hdelivers hactive hother)
      · rw [(handles_deliver b.exec c.slot c.callback ce).others s hs]
        exact ⟨rfl, rfl, rfl, rfl⟩
    · exact ⟨rfl, rfl, rfl, rfl⟩

/-- Between two events: an order that is followed has one slot and its own side, and no fill was
reported for it. -/
structure Inv (b : Broker) : Prop extends Accounted b where
  owned : ∀ s, (b.exec.pending s).active = true →
    b.sides[b.owner s]? = some (b.exec.pending s).side
  apart : ∀ s s', (b.exec.pending s).active = true → (b.exec.pending s').active = true →
    b.owner s = b.owner s' → s = s'
  silent : ∀ s, (b.exec.pending s).active = true → ∀ r ∈ b.reports, r.cause ≠ b.owner s

theorem inv_start (cfg : ExecConfig) (haveCredentials : Bool) :
    (start cfg haveCredentials).Inv where
  own := fun _ hr => absurd hr List.not_mem_nil
  once := fun _ => Nat.zero_le 1
  owned := fun _ h => absurd h Bool.false_ne_true
  apart := fun _ _ h => absurd h Bool.false_ne_true
  silent := fun _ h => absurd h Bool.false_ne_true

/-- The orders may be over, but nothing else changes. -/
theorem Inv.fewer (h : b.Inv) {b' : Broker} (hsides : b'.sides = b.sides)
    (howner : b'.owner = b.owner) (hreports : b'.reports = b.reports)
    (hactive : ∀ s, (b'.exec.pending s).active = true →
      (b.exec.pending s).active = true ∧ (b'.exec.pending s).side = (b.exec.pending s).side) :
    b'.Inv where
  own := by
    rw [hreports, hsides]
    exact h.own
  once := by
    rw [hreports]
    exact h.once
  owned := by
    intro s hs
    obtain ⟨hbefore, hside⟩ := hactive s hs
    rw [hsides, howner, hside]
    exact h.owned s hbefore
  apart := by
    intro s s' hs hs'
    rw [howner]
    exact h.apart s s' (hactive s hs).1 (hactive s' hs').1
  silent := by
    intro s hs
    rw [howner, hreports]
    exact h.silent s (hactive s hs).1

/-- The number of an order that is followed. -/
theorem Inv.owner_lt (h : b.Inv) {s : Slot} (hs : (b.exec.pending s).active = true) :
    b.owner s < b.sides.length :=
  (List.getElem?_eq_some_iff.mp (h.owned s hs)).1

/-- The number of an order that a fill was reported for. -/
theorem Inv.cause_lt (h : b.Inv) {r : Report} (hr : r ∈ b.reports) :
    r.cause < b.sides.length := by
  obtain ⟨-, side, hside, -⟩ := h.own r hr
  exact (List.getElem?_eq_some_iff.mp hside).1

/-- An order is sent, and it has a number of its own. -/
theorem Inv.sent (h : b.Inv) {side : Word} {r : Option Slot × Exec}
    (hr : Sends b.exec side r.1 r.2) : (b.sent side r).Inv := by
  obtain ⟨slot, e⟩ := r
  have hothers : ∀ s, s ∉ slot → (e.pending s).active = true →
      (b.exec.pending s).active = true ∧ (e.pending s).side = (b.exec.pending s).side := by
    intro s hs hactive
    have hsame : e.pending s = b.exec.pending s := hr.others s hs hactive
    rw [hsame] at hactive
    exact ⟨hactive, congrArg Pending.side hsame⟩
  cases slot with
  | none => exact h.fewer rfl rfl rfl fun s => hothers s (by rintro ⟨⟩)
  | some slot =>
    have hside : (e.pending slot).side = side := hr.side slot rfl
    -- the numbers so far are below the new one, which is that of this slot alone
    have hold : ∀ s, (e.pending s).active = true →
        s = slot ∧ (b.sent side (some slot, e)).owner s = b.sides.length ∨
          (b.sent side (some slot, e)).owner s = b.owner s ∧ b.owner s < b.sides.length ∧
            (b.exec.pending s).active = true ∧ (e.pending s).side = (b.exec.pending s).side := by
      intro s hactive
      by_cases hs : s = slot
      · rw [hs]
        exact .inl ⟨rfl, Function.update_self ..⟩
      · obtain ⟨hbefore, hsame⟩ := hothers s (by rintro ⟨⟩; exact hs rfl) hactive
        exact .inr ⟨Function.update_of_ne hs .., h.owner_lt hbefore, hbefore, hsame⟩
    constructor
    · refine ⟨fun r hr => ?_, h.once⟩
      obtain ⟨hown, side', hside', hfill⟩ := h.own r hr
      exact ⟨hown, side', (List.getElem?_append_left (h.cause_lt hr)).trans hside', hfill⟩
    · intro s hactive
      change (b.sides ++ [side])[_]? = some (e.pending s).side
      rcases hold s hactive with ⟨rfl, hnew⟩ | ⟨hsame, hlt, hbefore, hsides⟩
      · rw [hnew, hside, List.getElem?_append_right le_rfl, Nat.sub_self]
        rfl
      · rw [hsame, hsides, List.getElem?_append_left hlt]
        exact h.owned s hbefore
    · intro s s' hactive hactive' heq
      rcases hold s hactive with ⟨rfl, hnew⟩ | ⟨hsame, hlt, hbefore, -⟩
      · rcases hold s' hactive' with ⟨rfl, -⟩ | ⟨hsame', hlt', -, -⟩
        · rfl
        · exact absurd ((hsame'.symm.trans heq.symm).trans hnew) hlt'.ne
      · rcases hold s' hactive' with ⟨rfl, hnew'⟩ | ⟨hsame', -, hbefore', -⟩
        · exact absurd ((hsame.symm.trans heq).trans hnew') hlt.ne
        · exact h.apart s s' hbefore hbefore' ((hsame.symm.trans heq).trans hsame')
    · intro s hactive r hr
      rcases hold s hactive with ⟨-, hnew⟩ | ⟨hsame, -, hbefore, -⟩
      · rw [hnew]
        exact (h.cause_lt hr).ne
      · rw [hsame]
        exact h.silent s hbefore r hr

/-- A first fill is reported for an order that has no slot any more. -/
theorem Inv.reported (h : b.Inv) {n : ℕ} {side : Word} (hside : b.sides[n]? = some side)
    (hfirst : ∀ r ∈ b.reports, r.cause ≠ n)
    (hover : ∀ s, (b.exec.pending s).active = true → n ≠ b.owner s) :
    { b with reports := ⟨n, n, fillOf side⟩ :: b.reports }.Inv where
  own := by
    intro r hr
    rcases List.mem_cons.mp hr with rfl | hr
    · exact ⟨rfl, side, hside, rfl⟩
    · exact h.own r hr
  once := by
    intro m
    change (_ :: b.reports).countP (·.cause = m) ≤ 1
    by_cases hn : n = m
    · have hzero : b.reports.countP (·.cause = m) = 0 :=
        List.countP_eq_zero.mpr fun r hr => by simpa [← hn] using hfirst r hr
      rw [List.countP_cons_of_pos (by simpa using hn), hzero]
    · rw [List.countP_cons_of_neg (by simpa using hn)]
      exact h.once m
  owned := h.owned
  apart := h.apart
  silent := by
    intro s hs r hr
    rcases List.mem_cons.mp hr with rfl | hr
    · exact hover s hs
    · exact h.silent s hs r hr

/-- An event comes on a connection that may speak for the slot. -/
theorem Inv.heard (h : b.Inv) {k : ℕ} {c : Conn} {ev : ConnEvent}
    (hfresh : (b.exec.pending c.slot).active = true → b.owner c.slot ≠ c.order →
      Harmless (b.exec.pending c.slot) c.callback ev) : (b.heard k c ev).Inv := by
  obtain ⟨hothers, hside, hactive, hfills⟩ := handles_deliver b.exec c.slot c.callback ev
  have hfewer : ∀ s, ((b.exec.deliver c.slot c.callback ev).pending s).active = true →
      (b.exec.pending s).active = true ∧
        ((b.exec.deliver c.slot c.callback ev).pending s).side = (b.exec.pending s).side := by
    intro s hs
    by_cases hslot : s = c.slot
    · rw [hslot] at hs ⊢
      exact ⟨hactive hs, hside⟩
    · rw [hothers s hslot] at hs ⊢
      exact ⟨hs, rfl⟩
  -- without its report, the event may end an order and does no more
  have hquiet : { b.heard k c ev with reports := b.reports }.Inv := h.fewer rfl rfl rfl hfewer
  rcases hfills with hfills | ⟨qty, price, hfills, hbefore, hafter⟩
  · have hheard : b.heard k c ev = { b.heard k c ev with reports := b.reports } := by
      simp only [Broker.heard, hfills, Nat.sub_self, List.take_zero, List.map_nil, List.nil_append]
    rw [hheard]
    exact hquiet
  · -- the fill is the last thing that is heard of the order
    have howner : b.owner c.slot = c.order := by
      by_contra hne
      have hsame := (same_deliver_iff hbefore).mpr (hfresh hbefore hne)
      exact Bool.false_ne_true (hafter.symm.trans (hsame.active.trans hbefore))
    have hheard : b.heard k c ev = { b.heard k c ev with
        reports := ⟨c.order, c.order, fillOf (b.exec.pending c.slot).side⟩ :: b.reports } := by
      simp only [Broker.heard, hfills, List.length_cons, Nat.add_sub_cancel_left,
        List.take_succ_cons, List.take_zero, List.map_cons, List.map_nil, List.cons_append,
        List.nil_append, howner]
    have hown := h.owned c.slot hbefore
    have hfirst := h.silent c.slot hbefore
    rw [howner] at hown hfirst
    rw [hheard]
    refine hquiet.reported hown hfirst fun s hs heq => ?_
    have hslot := h.apart c.slot s hbefore (hfewer s hs).1 (howner.trans heq)
    have hs' : ((b.exec.deliver c.slot c.callback ev).pending s).active = true := hs
    rw [← hslot] at hs'
    exact Bool.false_ne_true (hafter.symm.trans hs')

theorem Inv.step (h : b.Inv) (hfresh : b.Fresh be) : (b.step be).Inv := by
  cases be with
  | send side mark nowMs nowUs opened =>
    exact h.sent (sends_send b.exec side mark nowMs nowUs opened)
  | poll now opened =>
    obtain ⟨hside, hactive, -⟩ := polls_poll b.exec now opened
    exact h.fewer rfl rfl rfl fun s hs => ⟨hactive s hs, hside s⟩
  | conn k ev =>
    cases hk : b.conns[k]? with
    | none => rwa [step_conn_none hk]
    | some c =>
      rw [step_conn hk]
      split_ifs with hdelivers
      · exact h.heard (hfresh k ev c rfl hk hdelivers)
      · exact h

end Broker

/-- **Responses are attributed to their own order**, in every run, just when every event comes while
its slot is free or still has the order of its connection, or finds nothing to do. -/
theorem responses_attributed (cfg : ExecConfig) (haveCredentials : Bool) (l : List BrokerEvent) :
    (Trace.Each Broker.step Broker.Attributed (.start cfg haveCredentials) l ∧
      Trace.Always Broker.step Broker.Accounted (.start cfg haveCredentials) l) ↔
      Trace.Each Broker.step Broker.Fresh (.start cfg haveCredentials) l := by
  have hiff : Trace.Each Broker.step Broker.Attributed (.start cfg haveCredentials) l ↔
      Trace.Each Broker.step Broker.Fresh (.start cfg haveCredentials) l :=
    Trace.each_congr Broker.attributed_iff
  rw [hiff]
  refine and_iff_left_of_imp fun hfresh => ?_
  refine Trace.Always.imp (Trace.always_of_each ?_ (Broker.inv_start cfg haveCredentials) hfresh) ?_
  · exact fun b be hb hbe => hb.step hbe
  · exact fun b hb => hb.toAccounted

/-! ### A slot that is used again -/

namespace SlotReused

def config : ExecConfig := ⟨1000, 500, false⟩

/-- An order to buy is filled by the answer to its request; an order to sell gets its slot; then an
error comes on the connection of the first. -/
def events : List BrokerEvent :=
  [.send signalBuy 100 5000 5000000 true,
    .conn 0 (.httpMsg 200 OrderObject.whole.text),
    .send signalSell 100 6000 6000000 true,
    .conn 0 .error]

/-- Before the error. -/
def before : Broker := Trace.run Broker.step (.start config true) (events.take 3)

theorem before_spec : before.conns[0]? = some ⟨0, .order, 0, true, false⟩ ∧ before.owner 0 = 1 ∧
    (before.exec.pending 0).active = true := ⟨rfl, rfl, rfl⟩

theorem freed : ((before.step (.conn 0 .error)).exec.pending 0).active = false := rfl

end SlotReused

/-- The order to sell is no longer followed. -/
theorem not_responses_attributed :
    ¬∀ (cfg : ExecConfig) (haveCredentials : Bool) (l : List BrokerEvent),
      Trace.Each Broker.step Broker.Attributed (.start cfg haveCredentials) l ∧
        Trace.Always Broker.step Broker.Accounted (.start cfg haveCredentials) l := by
  intro h
  obtain ⟨heach, -⟩ := h SlotReused.config true SlotReused.events
  have herror : SlotReused.before.Attributed (.conn 0 .error) :=
    heach (SlotReused.events.take 3) (.conn 0 .error) ⟨[], rfl⟩
  obtain ⟨hconn, howner, hactive⟩ := SlotReused.before_spec
  have hsame := herror 0 .error _ rfl hconn 0 hactive (by rw [howner]; decide)
  exact Bool.false_ne_true (SlotReused.freed.symm.trans (hsame.active.trans hactive))

end Fmma
