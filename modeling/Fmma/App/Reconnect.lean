import Fmma.App.Feed

/-!
# The connection to the exchange

The feed with the connections that mongoose keeps for it, in any interleaving of their events with
the polls of the event loop. A connection may end at any time, opened or not, and asking for one may
fail. There is never more than one, the feed is never left without either a connection or a time at
which it asks again, and attempts that fail grow apart.
-/

namespace Fmma

/-- `BACKOFF_MIN_MS`, doubled for each failure, up to `BACKOFF_MAX_MS`; in microseconds. -/
def backoffUs (failures : ℕ) : ℕ :=
  min (MarketFeed.backoffMinMs * 2 ^ failures) MarketFeed.backoffMaxMs * 1000

/-- The feed and its connections, each with whether its websocket has been opened. Beside it the
clock, the failures since a websocket was last opened (a connection that was refused or has ended),
the opened connections that have ended, and the attempts, the latest first: when, and how many
failures there had been. -/
structure Link where
  feed : MarketFeed
  live : List (ℕ × Bool)
  clockUs : ℕ
  failures : ℕ
  drops : ℕ
  attempts : List (ℕ × ℕ)

/-- A poll of the event loop, or an event on a connection. -/
inductive LinkEvent
  | poll (nowUs refusedUs : ℕ) (opened : Option ℕ)
  | conn (id : ℕ) (ev : FeedEvent) (nowUs : ℕ)

namespace Link

/-- An attempt to connect. -/
def attempt (x : Link) (feed : MarketFeed) (nowUs refusedUs : ℕ) (opened : Option ℕ) : Link where
  feed := feed.start refusedUs opened
  live := (opened.map fun id => (id, false)).toList ++ x.live
  clockUs := refusedUs
  failures := if opened = none then x.failures + 1 else x.failures
  drops := x.drops
  attempts := (nowUs, x.failures) :: x.attempts

/-- `fmma_feed_create`, and `fmma_feed_start` at the time `nowUs`. -/
def begin (nowUs refusedUs : ℕ) (opened : Option ℕ) : Link :=
  attempt ⟨.create, [], nowUs, 0, 0, []⟩ .create nowUs refusedUs opened

/-- One event. -/
def step (x : Link) : LinkEvent → Link
  | .poll nowUs refusedUs opened =>
    if x.feed.Due nowUs then
      x.attempt { x.feed with reconnectAtUs := 0 } nowUs refusedUs opened
    else { x with clockUs := nowUs }
  | .conn id ev nowUs =>
    let x := { x with
      feed := (x.feed.feedCb nowUs ev).1
      clockUs := nowUs }
    match ev with
    | .wsOpen => { x with
        live := x.live.map fun c => if c.1 = id then (id, true) else c
        failures := 0 }
    | .close => { x with
        live := x.live.filter fun c => c.1 ≠ id
        failures := x.failures + 1
        drops := x.drops + if (id, true) ∈ x.live then 1 else 0 }
    | _ => x

/-- What may happen: the clock does not go back, a connection that is given is a new one, and events
come on connections that have not ended, a websocket being opened once and messages coming on an
open one. -/
def Allowed (x : Link) : LinkEvent → Prop
  | .poll nowUs refusedUs opened =>
    x.clockUs ≤ nowUs ∧ nowUs ≤ refusedUs ∧ ∀ id ∈ opened, id ∉ x.live.map Prod.fst
  | .conn id ev nowUs =>
    x.clockUs ≤ nowUs ∧
      match ev with
      | .wsOpen => (id, false) ∈ x.live
      | .wsMsg .. => (id, true) ∈ x.live
      | .connect | .error | .close => id ∈ x.live.map Prod.fst

/-! ### The invariant -/

/-- An attempt comes after a failure, and as long after it as the backoff was: so long after the
attempt before. -/
def Spaced : List (ℕ × ℕ) → Prop :=
  List.IsChain fun later earlier =>
    0 < later.2 ∧ earlier.1 + backoffUs (later.2 - 1) ≤ later.1

/-- Where the feed is with its connection. -/
inductive At (x : Link) : Prop
  /-- It has one, of mongoose's. -/
  | up (id : ℕ) (opened : Bool) (hlive : x.live = [(id, opened)]) (hconn : x.feed.conn = some id)
    (hconnected : x.feed.connected = opened) (hlast : ∀ a ∈ x.attempts.head?, a.1 ≤ x.clockUs)
  /-- It has none, and a time at which to ask again. -/
  | down (hlive : x.live = []) (hconn : x.feed.conn = none) (hconnected : x.feed.connected = false)
    (hfailed : 0 < x.failures) (hpos : 0 < x.feed.reconnectAtUs)
    (hsoon : x.feed.reconnectAtUs ≤ x.clockUs + backoffUs (x.failures - 1))
    (hlate : ∀ a ∈ x.attempts.head?, a.1 + backoffUs (x.failures - 1) ≤ x.feed.reconnectAtUs)

/-- The invariant. -/
structure Inv (x : Link) : Prop where
  place : x.At
  backoff : x.feed.backoffMs * 1000 = backoffUs x.failures
  drops : x.feed.feedDrops = x.drops
  spaced : Spaced x.attempts

variable {x : Link} {e : LinkEvent}

/-- The backoff is doubled, up to its maximum. -/
theorem backoffUs_succ {b k : ℕ} (h : b * 1000 = backoffUs k) :
    (if MarketFeed.backoffMaxMs < b * 2 then MarketFeed.backoffMaxMs else b * 2) * 1000 =
      backoffUs (k + 1) := by
  have hmin : b = min (500 * 2 ^ k) 30000 := Nat.mul_right_cancel (by decide : 0 < 1000) h
  have hnext : backoffUs (k + 1) = min (500 * (2 ^ k * 2)) 30000 * 1000 := by
    rw [← Nat.pow_succ]
    rfl
  have hmax : MarketFeed.backoffMaxMs = 30000 := rfl
  rw [hnext, hmax, hmin]
  congr 1
  clear h hmin hnext
  generalize 2 ^ k = p
  split_ifs <;> omega

theorem backoffUs_pos (k : ℕ) : 0 < backoffUs k := by
  have hpow : 0 < 2 ^ k := Nat.two_pow_pos k
  have hvalue : backoffUs k = min (500 * 2 ^ k) 30000 * 1000 := rfl
  omega

/-- A failure: the feed is to ask again. -/
theorem inv_failed {f : MarketFeed} {k t drops : ℕ} {attempts : List (ℕ × ℕ)}
    (hbackoff : f.backoffMs * 1000 = backoffUs k) (hdrops : f.feedDrops = drops)
    (hspaced : Spaced attempts) (hlast : ∀ a ∈ attempts.head?, a.1 ≤ t) :
    Inv ⟨f.scheduleReconnect t, [], t, k + 1, drops, attempts⟩ where
  place := by
    have hwait : (f.scheduleReconnect t).reconnectAtUs = t + backoffUs k := by
      rw [← hbackoff]
      rfl
    refine .down rfl rfl rfl (Nat.succ_pos k) ?_ ?_ fun a ha => ?_
    · change 0 < (f.scheduleReconnect t).reconnectAtUs
      rw [hwait]
      exact Nat.add_pos_right t (backoffUs_pos k)
    · exact hwait.le
    · change a.1 + backoffUs k ≤ (f.scheduleReconnect t).reconnectAtUs
      rw [hwait]
      exact Nat.add_le_add_right (hlast a ha) _
  backoff := backoffUs_succ hbackoff
  drops := hdrops
  spaced := hspaced

/-- **An attempt** of a feed without a connection. -/
theorem inv_attempt {f : MarketFeed} {nowUs refusedUs : ℕ} {opened : Option ℕ} (hlive : x.live = [])
    (hconnected : f.connected = false) (hbackoff : f.backoffMs * 1000 = backoffUs x.failures)
    (hdrops : f.feedDrops = x.drops) (hspaced : Spaced ((nowUs, x.failures) :: x.attempts))
    (hclock : nowUs ≤ refusedUs) : Inv (x.attempt f nowUs refusedUs opened) := by
  have hlast : ∀ a ∈ ((nowUs, x.failures) :: x.attempts).head?, a.1 ≤ refusedUs := by
    rintro a ⟨⟩
    exact hclock
  cases opened with
  | none =>
    rw [attempt, hlive]
    exact inv_failed (f := { f with conn := none }) hbackoff hdrops hspaced hlast
  | some id =>
    rw [attempt, hlive]
    exact ⟨.up id false rfl rfl hconnected hlast, hbackoff, hdrops, hspaced⟩

theorem inv_begin {nowUs refusedUs : ℕ} {opened : Option ℕ} (hclock : nowUs ≤ refusedUs) :
    Inv (begin nowUs refusedUs opened) :=
  inv_attempt rfl rfl rfl rfl (List.IsChain.singleton _) hclock

/-- A poll. -/
theorem Inv.poll (h : Inv x) {nowUs refusedUs : ℕ} {opened : Option ℕ}
    (hallowed : x.Allowed (.poll nowUs refusedUs opened)) :
    Inv (x.step (.poll nowUs refusedUs opened)) := by
  obtain ⟨hclock, hrefused, -⟩ := hallowed
  obtain ⟨hplace, hbackoff, hdrops, hspaced⟩ := h
  rw [step]
  split_ifs with hdue
  · cases hplace with
    | up id opened hlive hconn => exact absurd (hconn.symm.trans hdue.1) (Option.some_ne_none id)
    | down hlive hconn hconnected hfailed hpos hsoon hlate =>
      refine inv_attempt hlive hconnected hbackoff hdrops ?_ hrefused
      refine List.isChain_cons.mpr ⟨fun a ha => ⟨hfailed, ?_⟩, hspaced⟩
      exact (hlate a ha).trans hdue.2.2
  · refine ⟨?_, hbackoff, hdrops, hspaced⟩
    cases hplace with
    | up id opened hlive hconn hconnected hlast =>
      exact .up id opened hlive hconn hconnected fun a ha => (hlast a ha).trans hclock
    | down hlive hconn hconnected hfailed hpos hsoon hlate =>
      exact .down hlive hconn hconnected hfailed hpos
        (hsoon.trans (Nat.add_le_add_right hclock _)) hlate

/-- What a message does to the feed. -/
structure Kept (f g : MarketFeed) : Prop where
  conn : g.conn = f.conn
  connected : g.connected = f.connected
  backoffMs : g.backoffMs = f.backoffMs
  feedDrops : g.feedDrops = f.feedDrops

theorem kept_handleTicker (f : MarketFeed) (json : Text) : Kept f (f.handleTicker json).1 := by
  rw [MarketFeed.handleTicker]
  dsimp only
  split
  · split_ifs <;> exact ⟨rfl, rfl, rfl, rfl⟩
  · exact ⟨rfl, rfl, rfl, rfl⟩

theorem kept_feedCb (f : MarketFeed) (nowUs : ℕ) {ev : FeedEvent} (hopen : ev ≠ .wsOpen)
    (hclose : ev ≠ .close) : Kept f (f.feedCb nowUs ev).1 := by
  cases ev with
  | wsOpen => exact absurd rfl hopen
  | close => exact absurd rfl hclose
  | connect | error => exact ⟨rfl, rfl, rfl, rfl⟩
  | wsMsg bytes allocated =>
    rw [MarketFeed.feedCb]
    split_ifs
    · exact ⟨rfl, rfl, rfl, rfl⟩
    · exact kept_handleTicker _ _
    · exact ⟨rfl, rfl, rfl, rfl⟩

/-- An event comes on the connection that there is. -/
theorem At.of_mem (h : x.At) {id : ℕ} (hid : id ∈ x.live.map Prod.fst) :
    ∃ opened, x.live = [(id, opened)] ∧ x.feed.conn = some id ∧ x.feed.connected = opened ∧
      ∀ a ∈ x.attempts.head?, a.1 ≤ x.clockUs := by
  cases h with
  | up id' opened hlive hconn hconnected hlast =>
    rw [hlive, List.map_singleton, List.mem_singleton] at hid
    subst hid
    exact ⟨opened, hlive, hconn, hconnected, hlast⟩
  | down hlive =>
    rw [hlive] at hid
    cases hid

/-- An event that neither opens nor ends the connection. -/
theorem Inv.kept (h : Inv x) {id nowUs : ℕ} {f : MarketFeed} (hclock : x.clockUs ≤ nowUs)
    (hid : id ∈ x.live.map Prod.fst) (hkept : Kept x.feed f) :
    Inv { x with
      feed := f
      clockUs := nowUs } := by
  obtain ⟨opened, hlive, hconn, hconnected, hlast⟩ := h.place.of_mem hid
  refine ⟨.up id opened hlive (hkept.conn.trans hconn) (hkept.connected.trans hconnected)
    fun a ha => (hlast a ha).trans hclock, ?_, hkept.feedDrops.trans h.drops, h.spaced⟩
  change f.backoffMs * 1000 = _
  rw [hkept.backoffMs]
  exact h.backoff

/-- **Every event keeps the invariant.** -/
theorem Inv.step (h : Inv x) (hallowed : x.Allowed e) : Inv (x.step e) := by
  cases e with
  | poll nowUs refusedUs opened => exact h.poll hallowed
  | conn id ev nowUs =>
    obtain ⟨hclock, hev⟩ := hallowed
    cases ev with
    | connect =>
      exact h.kept hclock hev (kept_feedCb _ _ FeedEvent.noConfusion FeedEvent.noConfusion)
    | error =>
      exact h.kept hclock hev (kept_feedCb _ _ FeedEvent.noConfusion FeedEvent.noConfusion)
    | wsMsg bytes allocated =>
      exact h.kept hclock (List.mem_map_of_mem hev)
        (kept_feedCb _ _ FeedEvent.noConfusion FeedEvent.noConfusion)
    | wsOpen =>
      obtain ⟨opened, hlive, hconn, -, hlast⟩ := h.place.of_mem (List.mem_map_of_mem hev)
      refine ⟨.up id true ?_ hconn rfl fun a ha => (hlast a ha).trans hclock, rfl, h.drops,
        h.spaced⟩
      change x.live.map _ = _
      rw [hlive]
      simp
    | close =>
      obtain ⟨opened, hlive, hconn, hconnected, hlast⟩ := h.place.of_mem hev
      have hgone : (x.live.filter fun c => c.1 ≠ id) = [] := by
        rw [hlive]
        simp
      have hdrop : (if x.feed.connected then { x.feed with feedDrops := x.feed.feedDrops + 1 }
          else x.feed).feedDrops = x.drops + if (id, true) ∈ x.live then 1 else 0 := by
        rw [hlive, hconnected, ← h.drops]
        cases opened <;> simp
      have hback : (if x.feed.connected then { x.feed with feedDrops := x.feed.feedDrops + 1 }
          else x.feed).backoffMs = x.feed.backoffMs := by
        split_ifs <;> rfl
      have hfailed := inv_failed (t := nowUs) (hback.symm ▸ h.backoff) hdrop h.spaced
        fun a ha => (hlast a ha).trans hclock
      rw [← hgone] at hfailed
      exact hfailed

/-- What the invariant says, with the feed's own words. -/
structure Sound (x : Link) : Prop where
  single : x.live.length ≤ 1
  conn : x.feed.conn = (x.live.map Prod.fst).head?
  connected : x.feed.connected = true ↔ ∃ id, (id, true) ∈ x.live
  feedDrops : x.feed.feedDrops = x.drops
  backoffMs : x.feed.backoffMs = min (500 * 2 ^ x.failures) 30000
  spaced : Spaced x.attempts
  due : x.live = [] → ∃ t ≤ x.clockUs + backoffUs (x.failures - 1), ∀ nowUs ≥ t, x.feed.Due nowUs

theorem Inv.sound (h : Inv x) : x.Sound := by
  obtain ⟨hplace, hbackoff, hdrops, hspaced⟩ := h
  have hmin : x.feed.backoffMs = min (500 * 2 ^ x.failures) 30000 :=
    Nat.mul_right_cancel (by decide : 0 < 1000) hbackoff
  cases hplace with
  | up id opened hlive hconn hconnected hlast =>
    refine ⟨?_, ?_, ?_, hdrops, hmin, hspaced, fun hnone => ?_⟩
    · rw [hlive]
      exact le_rfl
    · rw [hlive, hconn]
      rfl
    · rw [hlive, hconnected]
      cases opened <;> simp
    · rw [hlive] at hnone
      cases hnone
  | down hlive hconn hconnected hfailed hpos hsoon hlate =>
    refine ⟨?_, ?_, ?_, hdrops, hmin, hspaced, fun _ => ?_⟩
    · rw [hlive]
      exact Nat.zero_le 1
    · rw [hlive, hconn]
      rfl
    · rw [hlive, hconnected]
      simp
    · exact ⟨_, hsoon, fun nowUs hnow => ⟨hconn, hpos.ne', hnow⟩⟩

end Link

open Link

/-- **The feed keeps one connection.** In any interleaving of polls with the events of mongoose,
whatever fails and whenever: there is one connection at most, and the feed has it; it is connected
just when that one's websocket is open; without one it asks again no later than its backoff; the
backoff is 500 ms, doubled for each failure since the last opened websocket, up to 30 s; an attempt
follows the last one by that much; and the drops are the opened connections that have ended. -/
theorem feed_connection (nowUs refusedUs : ℕ) (opened : Option ℕ) (hclock : nowUs ≤ refusedUs)
    (l : List LinkEvent) (h : Trace.Each Link.step Link.Allowed (.begin nowUs refusedUs opened) l) :
    Trace.Always Link.step Link.Sound (.begin nowUs refusedUs opened) l := by
  have hinv : Trace.Always Link.step Link.Inv (.begin nowUs refusedUs opened) l :=
    Trace.always_of_each (fun _ _ hx he => hx.step he) (inv_begin hclock) h
  exact hinv.imp fun _ hx => hx.sound

/-- A connection that ends before its websocket is open, and one that ends after. -/
def dropping : List LinkEvent :=
  [.conn 7 .close 20, .poll 500020 500020 (some 8), .conn 8 .wsOpen 600000, .conn 8 .close 700000]

theorem feed_connection_dropping :
    Trace.Always Link.step Link.Sound (.begin 10 10 (some 7)) dropping := by
  refine feed_connection 10 10 (some 7) le_rfl dropping ?_
  refine Trace.each_cons.mpr ⟨?_, Trace.each_cons.mpr ⟨?_, Trace.each_cons.mpr ⟨?_,
    Trace.each_cons.mpr ⟨?_, Trace.each_nil⟩⟩⟩⟩
  · exact ⟨by decide, by decide⟩
  · exact ⟨by decide, by decide, by decide⟩
  · exact ⟨by decide, by decide⟩
  · exact ⟨by decide, by decide⟩

end Fmma
