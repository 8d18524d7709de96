import Fmma.App.Attribution

/-!
# The executor, slot by slot

What the calls of the event loop and the callbacks do to the order of one slot. Every function here
is the one of `fmma_exec.c` as it concerns its slot, and comes with the equation that says so.
-/

namespace Fmma

namespace Exec

open Json

variable {e : Exec} {slot s : Slot} {now : BitVec 64}

/-! ### One poll -/

/-- One turn of the loop of `fmma_exec_poll`, as it concerns its slot. -/
def pollOne (cfg : ExecConfig) (now : BitVec 64) (opened : Bool) (p : Pending) : Bool × Pending :=
  if !p.active || p.queryInFlight || p.id = [] then (false, p)
  else if now - p.lastPollUs < cfg.orderPollMs.setWidth 64 * 1000 then (false, p)
  else if 60000000 < now - p.sentUs then (false, { p with lastPollUs := now, active := false })
  else if opened then (true, { p with lastPollUs := now, queryInFlight := true })
  else (false, { p with lastPollUs := now })

theorem modify_modify (e : Exec) (slot : Slot) (f g : Pending → Pending) :
    (e.modify slot f).modify slot g = e.modify slot fun p => g (f p) := by
  simp only [modify, Function.update_self, Function.update_idem]

theorem modify_eq_self {f : Pending → Pending} (h : f (e.pending slot) = e.pending slot) :
    e.modify slot f = e := by
  simp only [modify, h, Function.update_eq_self]

theorem pollSlot_eq (e : Exec) (now : BitVec 64) (opened : Bool) (i : Slot) :
    e.pollSlot now opened i = ((pollOne e.cfg now opened (e.pending i)).1,
      e.modify i fun _ => (pollOne e.cfg now opened (e.pending i)).2) := by
  have hsame : e.modify i (fun _ => e.pending i) = e := modify_eq_self rfl
  simp only [pollSlot, pollOne]
  split_ifs
  · rw [hsame]
  · rw [hsame]
  · dsimp only
    rw [modify_modify]
    rfl
  · dsimp only
    rw [modify_modify]
    rfl
  · rfl

/-- One turn, with the slots that are asked for so far. -/
def pollTurn (now : BitVec 64) (opened : Slot → Bool) (a : List Slot × Exec) (i : Slot) :
    List Slot × Exec :=
  (if (a.2.pollSlot now (opened i) i).1 then i :: a.1 else a.1,
    (a.2.pollSlot now (opened i) i).2)

section Turn

variable (opened : Slot → Bool) (a : List Slot × Exec) (i s : Slot)

theorem pollTurn_cfg : (pollTurn now opened a i).2.cfg = a.2.cfg := by
  rw [pollTurn, pollSlot_eq]
  rfl

theorem pollTurn_pending : (pollTurn now opened a i).2.pending s =
    if s = i then (pollOne a.2.cfg now (opened s) (a.2.pending s)).2 else a.2.pending s := by
  simp only [pollTurn, pollSlot_eq]
  by_cases hs : s = i
  · rw [if_pos hs, hs, modify_pending]
  · rw [if_neg hs, modify_of_ne _ _ hs]

theorem mem_pollTurn : s ∈ (pollTurn now opened a i).1 ↔
    s ∈ a.1 ∨ s = i ∧ (pollOne a.2.cfg now (opened s) (a.2.pending s)).1 = true := by
  simp only [pollTurn, pollSlot_eq]
  split_ifs with hask
  · by_cases hs : s = i
    · simp [hs, hask]
    · simp [hs]
  · by_cases hs : s = i
    · simp [hs, hask]
    · simp [hs]

end Turn

/-- The loop over some of the slots. The turn of one slot leaves the others for theirs. -/
theorem foldl_pollTurn (now : BitVec 64) (opened : Slot → Bool) {l : List Slot} (hl : l.Nodup)
    (a : List Slot × Exec) :
    (∀ s, (l.foldl (pollTurn now opened) a).2.pending s =
      if s ∈ l then (pollOne a.2.cfg now (opened s) (a.2.pending s)).2 else a.2.pending s) ∧
    ∀ s, s ∈ (l.foldl (pollTurn now opened) a).1 ↔
      s ∈ a.1 ∨ s ∈ l ∧ (pollOne a.2.cfg now (opened s) (a.2.pending s)).1 = true := by
  induction l generalizing a with
  | nil => simp
  | cons i l ih =>
    obtain ⟨hi, hl⟩ := List.nodup_cons.mp hl
    -- the rest of the loop finds its slots as they were, since `i` is none of them
    obtain ⟨hpending, hasked⟩ := ih hl (pollTurn now opened a i)
    refine ⟨fun s => (hpending s).trans ?_, fun s => (hasked s).trans ?_⟩
    · rw [pollTurn_cfg, pollTurn_pending]
      by_cases hs : s = i
      · simp [hs, hi]
      · simp [hs]
    · rw [pollTurn_cfg, mem_pollTurn, pollTurn_pending]
      by_cases hs : s = i
      · simp [hs, hi]
      · simp [hs]

/-- **What a poll does**, slot by slot. -/
theorem poll_spec (e : Exec) (now : BitVec 64) (opened : Slot → Bool) :
    (∀ s, (e.poll now opened).2.pending s = (pollOne e.cfg now (opened s) (e.pending s)).2) ∧
      ∀ s, s ∈ (e.poll now opened).1 ↔ (pollOne e.cfg now (opened s) (e.pending s)).1 = true := by
  obtain ⟨hpending, hasked⟩ := foldl_pollTurn now opened (List.nodup_finRange 8) ([], e)
  refine ⟨fun s => (hpending s).trans (if_pos (List.mem_finRange s)), fun s => (hasked s).trans ?_⟩
  simp

/-! ### One order -/

/-- A new order is followed, without an id. -/
theorem send_new {side : Word} {mark : Int} {nowMs nowUs : BitVec 64} {opened : Bool}
    (h : (e.send side mark nowMs nowUs opened).1 = some s) :
    (e.send side mark nowMs nowUs opened).2.pending s =
      ⟨true, [], side, mark, nowUs, nowUs, false⟩ := by
  simp only [send] at h ⊢
  cases halloc : e.slotAlloc with
  | none =>
    rw [halloc] at h
    dsimp only at h
    split_ifs at h
  | some slot =>
    rw [halloc] at h
    dsimp only at h ⊢
    split_ifs at h ⊢
    obtain rfl := Option.some.inj h
    dsimp only
    rw [modify_pending]

/-- An order that has a slot keeps it. -/
theorem send_pending_of_active (side : Word) (mark : Int) (nowMs nowUs : BitVec 64) (opened : Bool)
    (h : (e.pending s).active = true) :
    (e.send side mark nowMs nowUs opened).2.pending s = e.pending s := by
  simp only [send]
  cases halloc : e.slotAlloc with
  | none =>
    dsimp only
    split_ifs <;> rfl
  | some slot =>
    have hfree : (e.pending slot).active = false := by
      simpa using List.find?_some halloc
    have hne : s ≠ slot := by
      rintro rfl
      exact Bool.false_ne_true (hfree.symm.trans h)
    dsimp only
    split_ifs
    · rfl
    · rfl
    · rfl
    · dsimp only
      rw [modify_of_ne _ _ hne]
    · rw [modify_of_ne _ _ hne, modify_of_ne _ _ hne]

/-- `settle`, as it concerns its slot. -/
theorem settle_pending (e : Exec) (slot : Slot) (status : Text) (price : Int) (qty : Word) :
    (e.settle slot status price qty).pending slot = { e.pending slot with active := false } := by
  rw [settle]
  cases hactive : (e.pending slot).active with
  | true =>
    rw [if_pos rfl, modify_pending]
    split_ifs <;> rfl
  | false => rw [if_neg Bool.false_ne_true, ← hactive]

/-- `order_cb`, as it concerns its slot. -/
def orderOne (p : Pending) : ConnEvent → Pending
  | .connect | .close => p
  | .error => { p with active := false }
  | .httpMsg status bytes =>
    if 200 ≤ status ∧ status < 300 then
      let p := { p with id := (copyString (bodyText bytes) Text.id 48).getD Text.noId }
      if statusIsTerminal (statusText (bodyText bytes)) then { p with active := false } else p
    else { p with active := false }

theorem orderCb_pending (e : Exec) (slot : Slot) (ev : ConnEvent) :
    (e.orderCb slot ev).pending slot = orderOne (e.pending slot) ev := by
  cases ev with
  | connect | close => rfl
  | error => simp only [orderCb, orderOne, modify_pending]
  | httpMsg status bytes =>
    simp only [orderCb, orderOne]
    split_ifs
    · rw [settle_pending, modify_pending]
    · rw [modify_pending]
    · rw [modify_pending]

/-- `query_cb`, as it concerns its slot. -/
def queryOne (p : Pending) : ConnEvent → Pending
  | .connect => p
  | .error | .close => { p with queryInFlight := false }
  | .httpMsg _ bytes =>
    if statusIsTerminal (statusText (bodyText bytes)) then
      { p with active := false, queryInFlight := false }
    else { p with queryInFlight := false }

theorem queryCb_pending (e : Exec) (slot : Slot) (ev : ConnEvent) :
    (e.queryCb slot ev).pending slot = queryOne (e.pending slot) ev := by
  cases ev with
  | connect => rfl
  | error | close => simp only [queryCb, queryOne, modify_pending]
  | httpMsg status bytes =>
    simp only [queryCb, queryOne, modify_pending]
    generalize (if copyString (bodyText bytes) Text.filledQty 32 = some ['0'] then (0 : Word)
      else 1) = qty
    split_ifs
    · rw [settle_pending]
    · rw [modify_pending]
    · rfl

theorem queryOne_id (p : Pending) (ev : ConnEvent) : (queryOne p ev).id = p.id := by
  cases ev with
  | connect | error | close => rfl
  | httpMsg =>
    simp only [queryOne]
    split_ifs <;> rfl

theorem queryOne_flag (p : Pending) {ev : ConnEvent} (h : (queryOne p ev).queryInFlight = true) :
    ev = .connect := by
  cases ev with
  | connect => rfl
  | error | close => cases h
  | httpMsg =>
    simp only [queryOne] at h
    split_ifs at h

theorem orderOne_flag (p : Pending) (ev : ConnEvent) :
    (orderOne p ev).queryInFlight = p.queryInFlight := by
  cases ev with
  | connect | error | close => rfl
  | httpMsg =>
    simp only [orderOne]
    split_ifs <;> rfl

theorem pollOne_id (cfg : ExecConfig) (now : BitVec 64) (opened : Bool) (p : Pending) :
    (pollOne cfg now opened p).2.id = p.id := by
  simp only [pollOne]
  split_ifs <;> rfl

theorem pollOne_active (cfg : ExecConfig) (now : BitVec 64) (opened : Bool) {p : Pending}
    (h : (pollOne cfg now opened p).2.active = true) : p.active = true := by
  simp only [pollOne] at h
  split_ifs at h
  all_goals exact h

/-- A query is under way that was before, or that is asked for now. -/
theorem pollOne_flag (cfg : ExecConfig) (now : BitVec 64) (opened : Bool) {p : Pending}
    (h : (pollOne cfg now opened p).2.queryInFlight = true) :
    p.queryInFlight = true ∨ (pollOne cfg now opened p).1 = true := by
  simp only [pollOne] at h ⊢
  split_ifs at h ⊢
  · exact .inl h
  · exact .inl h
  · exact .inl h
  · exact .inr rfl
  · exact .inl h

/-- An order that can be asked for is given up after 60 seconds. -/
theorem pollOne_gives_up (cfg : ExecConfig) {now : BitVec 64} (opened : Bool) {p : Pending}
    (hflag : p.active = true → p.queryInFlight = false) (hid : p.active = true → p.id ≠ [])
    (hdue : p.active = true → cfg.orderPollMs.setWidth 64 * 1000 ≤ now - p.lastPollUs ∧
      60000000 < now - p.sentUs) : (pollOne cfg now opened p).2.active = false := by
  cases hactive : p.active with
  | false => simp [pollOne, hactive]
  | true =>
    -- it is not skipped, it is due, and it is too old
    obtain ⟨hpoll, hold⟩ := hdue hactive
    have hskip : (!p.active || p.queryInFlight || decide (p.id = [])) = false := by
      simp [hactive, hflag hactive, hid hactive]
    have hpoll' : ¬now - p.lastPollUs < cfg.orderPollMs.setWidth 64 * 1000 :=
      BitVec.not_lt.mpr hpoll
    simp only [pollOne, hskip, Bool.false_eq_true, if_false, if_neg hpoll', if_pos hold]

end Exec

end Fmma
