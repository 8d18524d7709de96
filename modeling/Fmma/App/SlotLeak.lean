import Fmma.App.SlotView

/-!
# Orders that are lost

A slot is free again when its order ends: with the answer to the request or to a query, with an
error, or when `fmma_exec_poll` gives the order up. It is polled by the id that the answer to the
request brings. `order_cb` does nothing on `CLOSE`, so that a request which is closed without an
answer leaves a slot that nothing ends.
-/

namespace Fmma

open Exec Json

theorem getD_noId_eq_nil {id : Option Text} : id.getD Text.noId = [] ↔ id = some [] := by
  cases id with
  | none => exact iff_of_false (by decide) (by rintro ⟨⟩)
  | some id => rw [Option.getD_some, Option.some.injEq]

theorem getElem?_concat {α : Type} {l : List α} {x y : α} {k : ℕ} :
    (l ++ [x])[k]? = some y ↔ l[k]? = some y ∨ k = l.length ∧ y = x := by
  grind

theorem getElem?_append_cases {α : Type} {l m : List α} {y : α} {k : ℕ}
    (h : (l ++ m)[k]? = some y) : l[k]? = some y ∨ y ∈ m := by
  grind

namespace Broker

/-! ### Orders that are followed -/

/-- The connection of the request for the order that has the slot, before its `CLOSE`. -/
structure Own (b : Broker) (s : Slot) (c : Conn) : Prop where
  callback : c.callback = .order
  slot : c.slot = s
  order : c.order = b.owner s
  opened : c.closed = false

/-- It is there. -/
def Posting (b : Broker) (s : Slot) : Prop := ∃ c ∈ b.conns, b.Own s c

/-- Every order that has a slot waits for the answer to its request, or has an id to be asked for
by. -/
def Followed (b : Broker) : Prop :=
  ∀ s, (b.exec.pending s).active = true → b.Posting s ∨ (b.exec.pending s).id ≠ []

/-- When all connections have come to their `CLOSE`, a poll that is due 60 seconds after the last
order was sent frees all slots. -/
def Drains (b : Broker) : Prop :=
  (∀ c ∈ b.conns, c.closed = true) → ∀ (now : BitVec 64) (opened : Slot → Bool),
    (∀ s, (b.exec.pending s).active = true →
      b.exec.cfg.orderPollMs.setWidth 64 * 1000 ≤ now - (b.exec.pending s).lastPollUs ∧
        60000000 < now - (b.exec.pending s).sentUs) →
    ∀ s, ((b.step (.poll now opened)).exec.pending s).active = false

/-- An event on a request whose slot is taken. A `CLOSE` that ends the request of the order finds
it with an id. An accepted order that goes on has an id that is not empty, unless the request of
the order that has the slot is still open. -/
def Keeps (b : Broker) (c : Conn) : ConnEvent → Prop
  | .connect | .error => True
  | .close => b.owner c.slot = c.order → (b.exec.pending c.slot).id ≠ []
  | .httpMsg status bytes => (200 ≤ status ∧ status < 300) →
    statusIsTerminal (statusText (bodyText bytes)) = false →
    copyString (bodyText bytes) Text.id 48 = some [] → b.Posting c.slot

/-- The event is such a one, or concerns no order that has a slot. -/
def Kept (b : Broker) (be : BrokerEvent) : Prop :=
  ∀ k ev c, be = .conn k ev → b.conns[k]? = some c → c.delivers ev = true → c.callback = .order →
    (b.exec.pending c.slot).active = true → b.Keeps c ev

/-- Between two events: each request has an order of its own, and a query that is under way has a
connection. -/
structure Wired (b : Broker) : Prop where
  numbered : ∀ c ∈ b.conns, c.callback = .order → c.order < b.sides.length
  single : ∀ (k k' : ℕ) (c c' : Conn), b.conns[k]? = some c → b.conns[k']? = some c' →
    c.callback = .order → c'.callback = .order → c.order = c'.order → k = k'
  asked : ∀ s, (b.exec.pending s).active = true → (b.exec.pending s).queryInFlight = true →
    ∃ c ∈ b.conns, c.callback = .query ∧ c.slot = s ∧ c.closed = false

variable {b : Broker} {be : BrokerEvent} {s : Slot} {k : ℕ} {c : Conn} {ev : ConnEvent}

theorem Posting.mono {b' : Broker} (h : b.Posting s) (hconns : ∀ c ∈ b.conns, c ∈ b'.conns)
    (howner : b'.owner s = b.owner s) : b'.Posting s := by
  obtain ⟨c, hc, hown⟩ := h
  exact ⟨c, hconns c hc, hown.callback, hown.slot, hown.order.trans howner.symm, hown.opened⟩

theorem wired_start (cfg : ExecConfig) (haveCredentials : Bool) :
    (start cfg haveCredentials).Wired where
  numbered := fun _ hc => absurd hc List.not_mem_nil
  single := fun _ _ _ _ hk => absurd hk (by simp [start])
  asked := fun _ h => absurd h Bool.false_ne_true

theorem followed_start (cfg : ExecConfig) (haveCredentials : Bool) :
    (start cfg haveCredentials).Followed := fun _ h => absurd h Bool.false_ne_true

/-- Orders that are followed can be given up. -/
theorem Followed.drains (h : b.Followed) (hw : b.Wired) : b.Drains := by
  intro hclosed now opened hdue s
  have hflag : (b.exec.pending s).active = true → (b.exec.pending s).queryInFlight = false := by
    intro hactive
    rw [Bool.eq_false_iff]
    intro hquery
    obtain ⟨c, hc, -, -, hopen⟩ := hw.asked s hactive hquery
    exact Bool.false_ne_true (hopen.symm.trans (hclosed c hc))
  have hid : (b.exec.pending s).active = true → (b.exec.pending s).id ≠ [] := by
    intro hactive
    refine (h s hactive).resolve_left ?_
    rintro ⟨c, hc, hown⟩
    exact Bool.false_ne_true (hown.opened.symm.trans (hclosed c hc))
  change ((b.exec.poll now opened).2.pending s).active = false
  rw [(poll_spec b.exec now opened).1]
  exact pollOne_gives_up b.exec.cfg (opened s) hflag hid (hdue s)

/-! ### What an event does to the connections -/

theorem getElem?_heard {j : ℕ} {d : Conn} (hk : b.conns[k]? = some c) :
    (b.heard k c ev).conns[j]? = some d ↔
      (j = k ∧ d = { c with
        answered := c.answered || ev.isMessage
        closed := c.closed || ev.isClose }) ∨ j ≠ k ∧ b.conns[j]? = some d := by
  obtain ⟨hlt, -⟩ := List.getElem?_eq_some_iff.mp hk
  simp only [heard, List.getElem?_set, hlt, if_true]
  by_cases hj : k = j
  · simp [hj, eq_comm]
  · simp [hj, Ne.symm hj]

/-- Only its own `CLOSE` ends a request. -/
theorem posting_heard (hk : b.conns[k]? = some c) (hdelivers : c.delivers ev = true) :
    (b.heard k c ev).Posting s ↔
      ∃ j d, b.conns[j]? = some d ∧ b.Own s d ∧ (j = k → ev.isClose = false) := by
  have hopen : c.closed = false := by
    unfold Conn.delivers at hdelivers
    grind
  constructor
  · rintro ⟨d, hd, hown⟩
    obtain ⟨j, hj⟩ := List.mem_iff_getElem?.mp hd
    obtain ⟨rfl, rfl⟩ | ⟨hne, hj⟩ := (getElem?_heard hk).mp hj
    · refine ⟨j, c, hk, ⟨hown.callback, hown.slot, hown.order, hopen⟩, fun _ => ?_⟩
      exact (Bool.or_eq_false_iff.mp hown.opened).2
    · exact ⟨j, d, hj, ⟨hown.callback, hown.slot, hown.order, hown.opened⟩, fun h => absurd h hne⟩
  · rintro ⟨j, d, hj, hown, hclose⟩
    by_cases hjk : j = k
    · subst hjk
      obtain rfl := Option.some.inj (hk.symm.trans hj)
      refine ⟨_, List.mem_iff_getElem?.mpr ⟨j, (getElem?_heard hk).mpr (.inl ⟨rfl, rfl⟩)⟩, ?_⟩
      refine ⟨hown.callback, hown.slot, hown.order, ?_⟩
      rw [hclose rfl, hown.opened]
      rfl
    · exact ⟨d, List.mem_iff_getElem?.mpr ⟨j, (getElem?_heard hk).mpr (.inr ⟨hjk, hj⟩)⟩,
        ⟨hown.callback, hown.slot, hown.order, hown.opened⟩⟩

theorem posting_iff : b.Posting s ↔ ∃ (j : ℕ) (d : Conn), b.conns[j]? = some d ∧ b.Own s d := by
  simp only [Posting, List.mem_iff_getElem?]
  grind

/-- A connection of another slot, or of a query, is no matter. -/
theorem posting_heard_of_not_own (hk : b.conns[k]? = some c) (hdelivers : c.delivers ev = true)
    (h : b.Own s c → ev.isClose = false) : (b.heard k c ev).Posting s ↔ b.Posting s := by
  rw [posting_heard hk hdelivers, posting_iff]
  refine exists_congr fun j => exists_congr fun d => and_congr_right fun hj =>
    and_iff_left_of_imp fun hown hjk => ?_
  rw [hjk] at hj
  obtain rfl := Option.some.inj (hk.symm.trans hj)
  exact h hown

/-- The `CLOSE` of the order's request ends it: there is no other. -/
theorem not_posting_heard (hw : b.Wired) (hk : b.conns[k]? = some c)
    (hdelivers : c.delivers .close = true) (hcallback : c.callback = .order)
    (howner : b.owner s = c.order) : ¬(b.heard k c .close).Posting s := by
  rw [posting_heard hk hdelivers]
  rintro ⟨j, d, hj, hown, hclose⟩
  have hjk : j = k := hw.single j k d c hj hk hown.callback hcallback (hown.order.trans howner)
  exact Bool.false_ne_true (hclose hjk).symm

/-! ### What an event does to the orders -/

theorem heard_pending_of_ne (h : s ≠ c.slot) :
    (b.heard k c ev).exec.pending s = b.exec.pending s :=
  (handles_deliver b.exec c.slot c.callback ev).others s h

theorem heard_pending_order (h : c.callback = .order) :
    (b.heard k c ev).exec.pending c.slot = orderOne (b.exec.pending c.slot) ev := by
  simp only [heard, h, deliver]
  exact orderCb_pending _ _ _

theorem heard_pending_query (h : c.callback = .query) :
    (b.heard k c ev).exec.pending c.slot = queryOne (b.exec.pending c.slot) ev := by
  simp only [heard, h, deliver]
  exact queryCb_pending _ _ _

theorem heard_active (h : ((b.heard k c ev).exec.pending s).active = true) :
    (b.exec.pending s).active = true := by
  by_cases hs : s = c.slot
  · rw [hs] at h ⊢
    exact (handles_deliver b.exec c.slot c.callback ev).active h
  · rwa [heard_pending_of_ne hs] at h

/-- An event on a query leaves its order followed, if it is not over. -/
theorem Followed.heard_query (h : b.Followed) (hk : b.conns[k]? = some c)
    (hdelivers : c.delivers ev = true) (hcallback : c.callback = .query) :
    (b.heard k c ev).Followed := by
  intro s hactive
  have hid : ((b.heard k c ev).exec.pending s).id = (b.exec.pending s).id := by
    by_cases hs : s = c.slot
    · rw [hs, heard_pending_query hcallback, queryOne_id]
    · rw [heard_pending_of_ne hs]
  have hposting : (b.heard k c ev).Posting s ↔ b.Posting s := by
    refine posting_heard_of_not_own hk hdelivers fun hown => ?_
    cases hown.callback.symm.trans hcallback
  rw [hposting, hid]
  exact h s (heard_active hactive)

/-- The other orders are followed as before. -/
theorem followed_heard_iff (h : b.Followed) (hk : b.conns[k]? = some c)
    (hdelivers : c.delivers ev = true) : (b.heard k c ev).Followed ↔
      (((b.heard k c ev).exec.pending c.slot).active = true → (b.heard k c ev).Posting c.slot ∨
        ((b.heard k c ev).exec.pending c.slot).id ≠ []) := by
  constructor
  · exact fun h' => h' c.slot
  · intro h' s hactive
    by_cases hs : s = c.slot
    · rw [hs] at hactive ⊢
      exact h' hactive
    · have hposting : (b.heard k c ev).Posting s ↔ b.Posting s :=
        posting_heard_of_not_own hk hdelivers fun hown => absurd hown.slot.symm hs
      rw [heard_pending_of_ne hs] at hactive ⊢
      rw [hposting]
      exact h s hactive

/-- **An event on a request** leaves the orders followed just when it keeps its own. -/
theorem followed_heard_order (h : b.Followed) (hw : b.Wired) (hk : b.conns[k]? = some c)
    (hdelivers : c.delivers ev = true) (hcallback : c.callback = .order) :
    (b.heard k c ev).Followed ↔ ((b.exec.pending c.slot).active = true → b.Keeps c ev) := by
  have hbefore := h c.slot
  rw [followed_heard_iff h hk hdelivers, heard_pending_order hcallback]
  have hposting : ev.isClose = false → ((b.heard k c ev).Posting c.slot ↔ b.Posting c.slot) :=
    fun hclose => posting_heard_of_not_own hk hdelivers fun _ => hclose
  cases ev with
  | connect =>
    rw [hposting rfl]
    exact iff_of_true hbefore fun _ => trivial
  | error => exact iff_of_true (fun hc => absurd hc Bool.false_ne_true) fun _ => trivial
  | close =>
    refine forall_congr' fun hactive => ?_
    by_cases howner : b.owner c.slot = c.order
    · rw [or_iff_right (not_posting_heard hw hk hdelivers hcallback howner)]
      exact ⟨fun hid _ => hid, fun hid => hid howner⟩
    · have hother : (b.heard k c .close).Posting c.slot ↔ b.Posting c.slot :=
        posting_heard_of_not_own hk hdelivers fun hown => absurd hown.order.symm howner
      rw [hother]
      exact iff_of_true (hbefore hactive) fun hc => absurd hc howner
  | httpMsg status bytes =>
    rw [hposting rfl]
    simp only [orderOne, Keeps]
    split_ifs with hok hterm
    · exact iff_of_true (fun hc => by cases hc)
        fun _ _ hnot => absurd (hterm.symm.trans hnot) (by decide)
    · refine forall_congr' fun _ => ?_
      rw [ne_eq, getD_noId_eq_nil]
      constructor
      · exact fun hfollowed _ _ hempty => hfollowed.resolve_right (not_not.mpr hempty)
      · intro hkeeps
        by_cases hempty : copyString (bodyText bytes) Text.id 48 = some []
        · exact .inl (hkeeps hok (Bool.eq_false_iff.mpr hterm) hempty)
        · exact .inr hempty
    · exact iff_of_true (fun hc => by cases hc) fun _ hc => absurd hc hok

/-! ### Runs -/

theorem kept_conn (hk : b.conns[k]? = some c) : b.Kept (.conn k ev) ↔
    (c.delivers ev = true → c.callback = .order → (b.exec.pending c.slot).active = true →
      b.Keeps c ev) := by
  constructor
  · exact fun h => h k ev c rfl hk
  · rintro h k' ev' c' ⟨⟩ hk'
    obtain rfl := Option.some.inj (hk.symm.trans hk')
    exact h

/-- An order is sent: its request is open, and the others are as they were. -/
theorem Followed.sent (h : b.Followed) {side : Word} {r : Option Slot × Exec}
    (hr : Sends b.exec side r.1 r.2) : (b.sent side r).Followed := by
  obtain ⟨slot, e⟩ := r
  intro s hactive
  cases slot with
  | none =>
    have hsame : e.pending s = b.exec.pending s := hr.others s (by rintro ⟨⟩) hactive
    have hactive : (e.pending s).active = true := hactive
    rw [hsame] at hactive
    have hid : ((b.sent side (none, e)).exec.pending s).id = (b.exec.pending s).id :=
      congrArg Pending.id hsame
    rw [hid]
    exact (h s hactive).imp_left fun hposting => hposting.mono (fun _ hc => hc) rfl
  | some slot =>
    by_cases hs : s = slot
    · refine .inl ⟨_, List.mem_append_right _ List.mem_cons_self, ?_⟩
      exact ⟨rfl, hs.symm, by rw [hs]; rfl, rfl⟩
    · have hsame : e.pending s = b.exec.pending s := by
        refine hr.others s ?_ hactive
        rintro ⟨⟩
        exact hs rfl
      have hactive : (e.pending s).active = true := hactive
      rw [hsame] at hactive
      have hid : ((b.sent side (some slot, e)).exec.pending s).id = (b.exec.pending s).id :=
        congrArg Pending.id hsame
      rw [hid]
      refine (h s hactive).imp_left fun hposting => hposting.mono ?_ ?_
      · exact fun _ hc => List.mem_append_left _ hc
      · exact Function.update_of_ne hs ..

/-- A poll brings no order to a slot, and takes no id away. -/
theorem Followed.polled (h : b.Followed) (now : BitVec 64) (opened : Slot → Bool) :
    (b.step (.poll now opened)).Followed := by
  intro s hactive
  have hpending : (b.step (.poll now opened)).exec.pending s =
      (pollOne b.exec.cfg now (opened s) (b.exec.pending s)).2 := (poll_spec b.exec now opened).1 s
  rw [hpending] at hactive ⊢
  rw [pollOne_id]
  refine (h s (pollOne_active _ _ _ hactive)).imp_left fun hposting => hposting.mono ?_ rfl
  exact fun _ hc => List.mem_append_left _ hc

/-- **An event leaves the orders followed** just when it is kept. -/
theorem followed_step (h : b.Followed) (hw : b.Wired) : (b.step be).Followed ↔ b.Kept be := by
  cases be with
  | send side mark nowMs nowUs opened =>
    exact iff_of_true (h.sent (sends_send b.exec side mark nowMs nowUs opened))
      fun _ _ _ hc => by cases hc
  | poll now opened => exact iff_of_true (h.polled now opened) fun _ _ _ hc => by cases hc
  | conn k ev =>
    cases hk : b.conns[k]? with
    | none =>
      rw [step_conn_none hk]
      refine iff_of_true h ?_
      rintro k' ev' c ⟨⟩ hk'
      cases hk.symm.trans hk'
    | some c =>
      rw [step_conn hk, kept_conn hk]
      split_ifs with hdelivers
      · cases hcallback : c.callback with
        | order =>
          rw [followed_heard_order h hw hk hdelivers hcallback]
          exact ⟨fun hkeeps _ _ => hkeeps, fun hkeeps => hkeeps hdelivers rfl⟩
        | query =>
          refine iff_of_true (h.heard_query hk hdelivers hcallback) fun _ hc => ?_
          cases hc
      · exact iff_of_true h fun hc => absurd hc hdelivers

/-- A request that is sent has a number of its own. -/
theorem Wired.sent (hw : b.Wired) {side : Word} {r : Option Slot × Exec}
    (hr : Sends b.exec side r.1 r.2)
    (hnew : ∀ slot ∈ r.1, (r.2.pending slot).queryInFlight = false) : (b.sent side r).Wired := by
  obtain ⟨slot, e⟩ := r
  have hasked : ∀ s, s ∉ slot → (e.pending s).active = true → (e.pending s).queryInFlight = true →
      ∃ c ∈ b.conns, c.callback = .query ∧ c.slot = s ∧ c.closed = false := by
    intro s hs hactive hquery
    have hsame : e.pending s = b.exec.pending s := hr.others s hs hactive
    rw [hsame] at hactive hquery
    exact hw.asked s hactive hquery
  cases slot with
  | none => exact ⟨hw.numbered, hw.single, fun s => hasked s (by rintro ⟨⟩)⟩
  | some slot =>
    have hself : (b.sent side (some slot, e)).conns =
        b.conns ++ [⟨slot, .order, b.sides.length, false, false⟩] := by
      simp only [Broker.sent, connect, Function.update_self]
    have hsides : (b.sent side (some slot, e)).sides.length = b.sides.length + 1 :=
      List.length_append
    constructor
    · rw [hself, hsides]
      intro c hc hcallback
      rcases List.mem_append.mp hc with hc | hc
      · exact Nat.lt_succ_of_lt (hw.numbered c hc hcallback)
      · rw [List.mem_singleton.mp hc]
        exact Nat.lt_succ_self _
    · rw [hself]
      intro k k' c c' hk hk' hcallback hcallback' horder
      rcases getElem?_concat.mp hk with hk | ⟨rfl, rfl⟩
      · have hlt := hw.numbered c (List.mem_of_getElem? hk) hcallback
        rcases getElem?_concat.mp hk' with hk' | ⟨rfl, rfl⟩
        · exact hw.single k k' c c' hk hk' hcallback hcallback' horder
        · exact absurd horder hlt.ne
      · rcases getElem?_concat.mp hk' with hk' | ⟨rfl, rfl⟩
        · have hlt := hw.numbered c' (List.mem_of_getElem? hk') hcallback'
          exact absurd horder.symm hlt.ne
        · rfl
    · rw [hself]
      intro s hactive hquery
      have hs : s ≠ slot := by
        rintro rfl
        have hquery : (e.pending s).queryInFlight = true := hquery
        exact Bool.false_ne_true ((hnew s rfl).symm.trans hquery)
      obtain ⟨c, hc, hrest⟩ := hasked s (by rintro ⟨⟩; exact hs rfl) hactive hquery
      exact ⟨c, List.mem_append_left _ hc, hrest⟩

/-- A query that is under way has the connection it was asked on. -/
theorem Wired.polled (hw : b.Wired) (now : BitVec 64) (opened : Slot → Bool) :
    (b.step (.poll now opened)).Wired := by
  have hqueries : ∀ c ∈ (b.exec.poll now opened).1.reverse.map (b.connect .query),
      c.callback = .query := by
    intro c hc
    obtain ⟨slot, -, rfl⟩ := List.mem_map.mp hc
    rfl
  have hold : ∀ {k : ℕ} {c : Conn}, (b.step (.poll now opened)).conns[k]? = some c →
      c.callback = .order → b.conns[k]? = some c := by
    intro k c hk hcallback
    rcases getElem?_append_cases hk with hk | hc
    · exact hk
    · cases hcallback.symm.trans (hqueries c hc)
  constructor
  · intro c hc hcallback
    rcases List.mem_append.mp hc with hc | hc
    · exact hw.numbered c hc hcallback
    · cases hcallback.symm.trans (hqueries c hc)
  · exact fun k k' c c' hk hk' hcallback hcallback' =>
      hw.single k k' c c' (hold hk hcallback) (hold hk' hcallback') hcallback hcallback'
  · intro s hactive hquery
    have hpending : (b.step (.poll now opened)).exec.pending s =
        (pollOne b.exec.cfg now (opened s) (b.exec.pending s)).2 :=
      (poll_spec b.exec now opened).1 s
    rw [hpending] at hactive hquery
    rcases pollOne_flag _ _ _ hquery with hquery | hask
    · obtain ⟨c, hc, hrest⟩ := hw.asked s (pollOne_active _ _ _ hactive) hquery
      exact ⟨c, List.mem_append_left _ hc, hrest⟩
    · have hmem : s ∈ (b.exec.poll now opened).1 := ((poll_spec b.exec now opened).2 s).mpr hask
      refine ⟨b.connect .query s, List.mem_append_right _ ?_, rfl, rfl, rfl⟩
      exact List.mem_map_of_mem (List.mem_reverse.mpr hmem)

/-- An event leaves a connection what it is for. -/
theorem heard_origin {j : ℕ} {d : Conn} (hk : b.conns[k]? = some c)
    (hj : (b.heard k c ev).conns[j]? = some d) :
    ∃ d', b.conns[j]? = some d' ∧ d.callback = d'.callback ∧ d.order = d'.order := by
  obtain ⟨rfl, rfl⟩ | ⟨-, hj⟩ := (getElem?_heard hk).mp hj
  · exact ⟨c, hk, rfl, rfl⟩
  · exact ⟨d, hj, rfl, rfl⟩

theorem Wired.heard (hw : b.Wired) (hk : b.conns[k]? = some c) : (b.heard k c ev).Wired := by
  constructor
  · intro d hd hcallback
    obtain ⟨j, hj⟩ := List.mem_iff_getElem?.mp hd
    obtain ⟨d', hj', hcallback', horder⟩ := heard_origin hk hj
    rw [horder]
    exact hw.numbered d' (List.mem_of_getElem? hj') (hcallback'.symm.trans hcallback)
  · intro j j' d d' hj hj' hcallback hcallback' horder
    obtain ⟨d₁, hj, hcallback₁, horder₁⟩ := heard_origin hk hj
    obtain ⟨d₂, hj', hcallback₂, horder₂⟩ := heard_origin hk hj'
    exact hw.single j j' d₁ d₂ hj hj' (hcallback₁.symm.trans hcallback)
      (hcallback₂.symm.trans hcallback') (horder₁.symm.trans (horder.trans horder₂))
  · intro s hactive hquery
    -- the query was under way before, and its connection hears of `CONNECT` at most
    have hbefore : (b.exec.pending s).queryInFlight = true ∧
        (s = c.slot → c.callback = .query → ev = .connect) := by
      by_cases hs : s = c.slot
      · cases hcallback : c.callback with
        | order =>
          rw [hs, heard_pending_order hcallback, orderOne_flag, ← hs] at hquery
          exact ⟨hquery, fun _ h => by cases h⟩
        | query =>
          rw [hs, heard_pending_query hcallback] at hquery
          have hconnect := queryOne_flag _ hquery
          rw [hconnect] at hquery
          exact ⟨hs ▸ hquery, fun _ _ => hconnect⟩
      · rw [heard_pending_of_ne hs] at hquery
        exact ⟨hquery, fun h => absurd h hs⟩
    obtain ⟨d, hd, hcallback, hslot, hopen⟩ := hw.asked s (heard_active hactive) hbefore.1
    obtain ⟨j, hj⟩ := List.mem_iff_getElem?.mp hd
    by_cases hjk : j = k
    · subst hjk
      obtain rfl := Option.some.inj (hk.symm.trans hj)
      obtain rfl := hbefore.2 hslot.symm hcallback
      refine ⟨_, List.mem_iff_getElem?.mpr ⟨j, (getElem?_heard hk).mpr (.inl ⟨rfl, rfl⟩)⟩, ?_⟩
      exact ⟨hcallback, hslot, by rw [hopen]; rfl⟩
    · exact ⟨d, List.mem_iff_getElem?.mpr ⟨j, (getElem?_heard hk).mpr (.inr ⟨hjk, hj⟩)⟩,
        hcallback, hslot, hopen⟩

theorem Wired.step (hw : b.Wired) : (b.step be).Wired := by
  cases be with
  | send side mark nowMs nowUs opened =>
    refine hw.sent (sends_send b.exec side mark nowMs nowUs opened) fun slot hslot => ?_
    rw [send_new hslot]
  | poll now opened => exact hw.polled now opened
  | conn k ev =>
    cases hk : b.conns[k]? with
    | none => rwa [step_conn_none hk]
    | some c =>
      rw [step_conn hk]
      split_ifs with hdelivers
      · exact hw.heard hk
      · exact hw

end Broker

/-- **No slot leaks**, in any run of the executor, just when every event on a request is kept: no
request is closed on an order that has no id. -/
theorem no_slot_leaks_iff (cfg : ExecConfig) (haveCredentials : Bool) (l : List BrokerEvent) :
    Trace.Always Broker.step (fun b => b.Followed ∧ b.Drains) (.start cfg haveCredentials) l ↔
      Trace.Each Broker.step Broker.Kept (.start cfg haveCredentials) l := by
  refine Trace.always_iff_each (I := Broker.Wired) (fun b be hw => hw.step) ?_
    (Broker.wired_start cfg haveCredentials) ?_
  · intro b be hw h
    rw [← Broker.followed_step h.1 hw]
    exact and_iff_left_of_imp fun hf => hf.drains hw.step
  · have h := Broker.followed_start cfg haveCredentials
    exact ⟨h, h.drains (Broker.wired_start cfg haveCredentials)⟩

/-- **A request that is closed without an answer.** Its order has the slot, no request and no id. -/
theorem not_no_slot_leaks : ¬∀ (cfg : ExecConfig) (haveCredentials : Bool) (l : List BrokerEvent),
    Trace.Always Broker.step (fun b => b.Followed ∧ b.Drains) (.start cfg haveCredentials) l := by
  intro hall
  obtain ⟨hfollowed, -⟩ := hall ⟨1000, 500, false⟩ true
    [.send signalBuy 100 5000 5000000 true, .conn 0 .close] _ List.prefix_rfl
  obtain ⟨c, hc, hown⟩ | hid := hfollowed 0 rfl
  · obtain rfl : c = ⟨0, .order, 0, false, true⟩ := List.mem_singleton.mp hc
    cases hown.opened
  · exact hid rfl

/-! ### What is lost stays lost -/

namespace Broker

/-- The order has no id, and no connection that could bring one. -/
structure Lost (b : Broker) (s : Slot) : Prop where
  active : (b.exec.pending s).active = true
  noId : (b.exec.pending s).id = []
  alone : ∀ c ∈ b.conns, c.slot = s → c.closed = true

variable {b : Broker} {be : BrokerEvent} {s : Slot}

theorem Lost.of_same {b' : Broker} (h : b.Lost s) (hpending : b'.exec.pending s = b.exec.pending s)
    (hconns : ∀ c ∈ b'.conns, c.slot = s → c.closed = true) : b'.Lost s where
  active := by rw [hpending]; exact h.active
  noId := by rw [hpending]; exact h.noId
  alone := hconns

/-- An order that is sent gets another slot. -/
theorem Lost.sent (h : b.Lost s) {side : Word} {r : Option Slot × Exec}
    (hr : Sends b.exec side r.1 r.2) (hpending : r.2.pending s = b.exec.pending s) :
    (b.sent side r).Lost s := by
  obtain ⟨slot, e⟩ := r
  cases slot with
  | none => exact h.of_same hpending h.alone
  | some slot =>
    refine h.of_same hpending fun c hc hslot => ?_
    rcases List.mem_append.mp hc with hc | hc
    · exact h.alone c hc hslot
    · rw [List.mem_singleton.mp hc] at hslot
      have hfree : (b.exec.pending slot).active = false := hr.free slot rfl
      have hslot : slot = s := hslot
      rw [hslot, h.active] at hfree
      cases hfree

/-- A poll skips what has no id. -/
theorem Lost.polled (h : b.Lost s) (now : BitVec 64) (opened : Slot → Bool) :
    (b.step (.poll now opened)).Lost s := by
  have hskip : pollOne b.exec.cfg now (opened s) (b.exec.pending s) =
      (false, b.exec.pending s) := by
    simp [pollOne, h.noId]
  obtain ⟨hpending, hasked⟩ := poll_spec b.exec now opened
  refine h.of_same ((hpending s).trans (by rw [hskip])) fun c hc hslot => ?_
  rcases List.mem_append.mp hc with hc | hc
  · exact h.alone c hc hslot
  · obtain ⟨slot, hmem, rfl⟩ := List.mem_map.mp hc
    have hslot : slot = s := hslot
    have hask := (hasked slot).mp (List.mem_reverse.mp hmem)
    rw [hslot, hskip] at hask
    cases hask

/-- What is delivered goes to an open connection, and so to another slot. -/
theorem Lost.heard (h : b.Lost s) {k : ℕ} {c : Conn} {ev : ConnEvent} (hk : b.conns[k]? = some c)
    (hdelivers : c.delivers ev = true) : (b.heard k c ev).Lost s := by
  have hs : s ≠ c.slot := by
    intro hs
    have hclosed := h.alone c (List.mem_of_getElem? hk) hs.symm
    simp [Conn.delivers, hclosed] at hdelivers
  refine h.of_same (heard_pending_of_ne hs) fun d hd hslot => ?_
  obtain ⟨j, hj⟩ := List.mem_iff_getElem?.mp hd
  obtain ⟨rfl, rfl⟩ | ⟨-, hj⟩ := (getElem?_heard hk).mp hj
  · exact absurd hslot.symm hs
  · exact h.alone d (List.mem_of_getElem? hj) hslot

/-- **No event ends an order that is lost.** -/
theorem Lost.step (h : b.Lost s) : (b.step be).Lost s := by
  cases be with
  | send side mark nowMs nowUs opened =>
    exact h.sent (sends_send b.exec side mark nowMs nowUs opened)
      (send_pending_of_active side mark nowMs nowUs opened h.active)
  | poll now opened => exact h.polled now opened
  | conn k ev =>
    cases hk : b.conns[k]? with
    | none => rwa [step_conn_none hk]
    | some c =>
      rw [step_conn hk]
      split_ifs with hdelivers
      · exact h.heard hk hdelivers
      · exact h

theorem Lost.run {l : List BrokerEvent} (h : b.Lost s) : (Trace.run Broker.step b l).Lost s := by
  induction l generalizing b with
  | nil => exact h
  | cons be l ih => exact ih h.step

/-- **With all slots lost, no order is sent any more**, whatever happens. -/
theorem orders_dropped (h : ∀ s, b.Lost s) (l : List BrokerEvent) (side : Word) (mark : Int)
    (nowMs nowUs : BitVec 64) (opened : Bool) :
    ((Trace.run step b l).exec.send side mark nowMs nowUs opened).1 = none := by
  have hfull : (Trace.run step b l).exec.slotAlloc = none := by
    refine List.find?_eq_none.mpr fun s _ => ?_
    rw [((h s).run (l := l)).active]
    decide
  simp only [send, hfull]
  split_ifs <;> rfl

end Broker

end Fmma
