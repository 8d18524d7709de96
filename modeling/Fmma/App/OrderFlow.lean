import Fmma.App.EventLoop

/-!
# The flow of the orders

What the event loop sends and what it hears back. Orders are spaced by the cooldown. A fill ends an
order that is followed, so that there are no more fills than orders, on each side, even where the
broker answers on the connection of another order.
-/

namespace Fmma

namespace Exec

variable {e e' : Exec} {slot : Slot} {side : Word}

/-- The orders that are followed, of those whose fill would be of the side. -/
def following (e : Exec) (side : Word) : Finset Slot :=
  Finset.univ.filter fun s => (e.pending s).active = true ∧ fillOf (e.pending s).side = side

theorem mem_following {s : Slot} : s ∈ e.following side ↔
    (e.pending s).active = true ∧ fillOf (e.pending s).side = side := by
  rw [following, Finset.mem_filter, and_iff_right (Finset.mem_univ s)]

/-- What may be followed less. -/
theorem following_subset (hside : ∀ s, (e'.pending s).side = (e.pending s).side)
    (hactive : ∀ s, (e'.pending s).active = true → (e.pending s).active = true) (side : Word) :
    e'.following side ⊆ e.following side := by
  intro s hs
  rw [mem_following, hside] at hs
  exact mem_following.mpr ⟨hactive s hs.1, hs.2⟩

/-- **A callback** takes an order out for each fill that it reports. -/
theorem fills_following_deliver (e : Exec) (slot : Slot) (callback : Callback) (ev : ConnEvent)
    (side : Word) :
    (e.deliver slot callback ev).fills.countP (·.1 = side) +
        ((e.deliver slot callback ev).following side).card ≤
      e.fills.countP (·.1 = side) + (e.following side).card := by
  have hh := handles_deliver e slot callback ev
  have hsub : (e.deliver slot callback ev).following side ⊆ e.following side := by
    refine following_subset (fun s => ?_) (fun s => ?_) side
    · by_cases hs : s = slot
      · rw [hs, hh.side]
      · rw [hh.others s hs]
    · by_cases hs : s = slot
      · rw [hs]
        exact hh.active
      · rw [hh.others s hs]
        exact id
  rcases hh.fills with hfills | ⟨qty, price, hfills, hbefore, hafter⟩
  · rw [hfills]
    exact Nat.add_le_add_left (Finset.card_le_card hsub) _
  · rw [hfills, List.countP_cons]
    by_cases hfill : fillOf (e.pending slot).side = side
    · -- the order of the fill is followed no more
      have hin : slot ∈ e.following side := mem_following.mpr ⟨hbefore, hfill⟩
      have hout : slot ∉ (e.deliver slot callback ev).following side := by
        intro hc
        exact Bool.false_ne_true (hafter.symm.trans (mem_following.mp hc).1)
      have hlt := Finset.card_lt_card (Finset.ssubset_iff_subset_ne.mpr
        ⟨hsub, fun heq => hout (heq ▸ hin)⟩)
      rw [if_pos (decide_eq_true hfill)]
      omega
    · rw [if_neg (by simpa using hfill)]
      exact Nat.add_le_add_left (Finset.card_le_card hsub) _

/-- A callback reports one lot. -/
theorem lot_deliver (e : Exec) (slot : Slot) (callback : Callback) (ev : ConnEvent) :
    ∀ f ∈ (e.deliver slot callback ev).fills, f ∈ e.fills ∨ f.2.1 = 1 := by
  have hsettle : ∀ (e' : Exec) (status : Text) (price : Int), e'.fills = e.fills →
      ∀ f ∈ (e'.settle slot status price 1).fills, f ∈ e.fills ∨ f.2.1 = 1 := by
    intro e' status price hsame f hf
    rw [settle] at hf
    split_ifs at hf
    · rcases List.mem_cons.mp hf with rfl | hmem
      · exact .inr rfl
      · exact .inl (hsame ▸ hmem)
    · exact .inl (hsame ▸ hf)
    · exact .inl (hsame ▸ hf)
  intro f hf
  cases callback with
  | order =>
    cases ev with
    | connect | error | close => exact .inl hf
    | httpMsg status bytes =>
      simp only [deliver, orderCb] at hf
      split_ifs at hf
      · refine hsettle _ _ _ ?_ f hf
        rfl
      · exact .inl hf
      · exact .inl hf
  | query =>
    cases ev with
    | connect | error | close => exact .inl hf
    | httpMsg status bytes =>
      simp only [deliver, queryCb] at hf
      split_ifs at hf with hterm hzero hqty hqty
      · exact absurd rfl hqty
      · exact .inl hf
      · exact hsettle e _ _ rfl f hf
      · exact .inl hf
      · exact .inl hf

/-- What is set once, and the time of the last order. -/
structure SameClock (e e' : Exec) : Prop where
  cfg : e'.cfg = e.cfg
  haveCredentials : e'.haveCredentials = e.haveCredentials
  lastOrderMs : e'.lastOrderMs = e.lastOrderMs

theorem SameClock.refl (e : Exec) : SameClock e e := ⟨rfl, rfl, rfl⟩

theorem SameClock.trans {e₁ e₂ e₃ : Exec} (h : SameClock e₁ e₂) (h' : SameClock e₂ e₃) :
    SameClock e₁ e₃ :=
  ⟨h'.cfg.trans h.cfg, h'.haveCredentials.trans h.haveCredentials,
    h'.lastOrderMs.trans h.lastOrderMs⟩

theorem sameClock_settle (e : Exec) (slot : Slot) (status : Text) (price : Int) (qty : Word) :
    SameClock e (e.settle slot status price qty) := by
  rw [settle]
  split_ifs
  · exact ⟨rfl, rfl, rfl⟩
  · exact ⟨rfl, rfl, rfl⟩
  · exact SameClock.refl e

theorem sameClock_deliver (e : Exec) (slot : Slot) (callback : Callback) (ev : ConnEvent) :
    SameClock e (e.deliver slot callback ev) := by
  have hmodify : ∀ (e : Exec) (f : Pending → Pending), SameClock e (e.modify slot f) :=
    fun _ _ => ⟨rfl, rfl, rfl⟩
  cases callback with
  | order =>
    cases ev with
    | connect | close => exact SameClock.refl e
    | error => exact ⟨rfl, rfl, rfl⟩
    | httpMsg status bytes =>
      simp only [deliver, orderCb]
      split_ifs
      · exact (hmodify _ _).trans (sameClock_settle _ _ _ _ _)
      · exact hmodify _ _
      · exact hmodify _ _
  | query =>
    cases ev with
    | connect => exact SameClock.refl e
    | error | close => exact ⟨rfl, rfl, rfl⟩
    | httpMsg status bytes =>
      simp only [deliver, queryCb]
      refine SameClock.trans ?_ (hmodify _ _)
      generalize (if Json.copyString (bodyText bytes) Text.filledQty 32 = some ['0'] then (0 : Word)
        else 1) = qty
      split_ifs
      · exact sameClock_settle _ _ _ _ _
      · exact hmodify _ _
      · exact SameClock.refl e

theorem sameClock_poll (e : Exec) (now : BitVec 64) (opened : Slot → Bool) :
    SameClock e (e.poll now opened).2 := by
  have hslot : ∀ (e : Exec) (i : Slot), SameClock e (e.pollSlot now (opened i) i).2 := by
    intro e i
    simp only [pollSlot]
    split_ifs <;> exact ⟨rfl, rfl, rfl⟩
  have hfold : ∀ (l : List Slot) (a : List Slot × Exec), SameClock e a.2 →
      SameClock e (l.foldl (fun a i =>
        (if (a.2.pollSlot now (opened i) i).1 then i :: a.1 else a.1,
          (a.2.pollSlot now (opened i) i).2)) a).2 := by
    intro l
    induction l with
    | nil => exact fun _ h => h
    | cons i l ih => exact fun a h => ih _ (h.trans (hslot a.2 i))
  exact hfold (List.finRange 8) ([], e) (SameClock.refl e)

/-- An order that does not go out, or one that does: then the last one was long enough ago. -/
inductive Goes (e : Exec) (nowMs : BitVec 64) : Option Slot → Exec → Prop
  | stays {e' : Exec} (hcfg : e'.cfg = e.cfg) (hcred : e'.haveCredentials = e.haveCredentials)
    (hlast : e'.lastOrderMs = e.lastOrderMs ∨ e.cfg.dryRun = true) : Goes e nowMs none e'
  | goes {slot : Slot} {e' : Exec} (hcfg : e'.cfg = e.cfg)
    (hcred : e'.haveCredentials = e.haveCredentials) (hlast : e'.lastOrderMs = nowMs)
    (hreal : e.cfg.dryRun = false ∧ e.haveCredentials = true)
    (hcool : e.cfg.cooldownMs.setWidth 64 ≤ nowMs - e.lastOrderMs) : Goes e nowMs (some slot) e'

theorem goes_send (e : Exec) (side : Word) (mark : Int) (nowMs nowUs : BitVec 64) (opened : Bool) :
    Goes e nowMs (e.send side mark nowMs nowUs opened).1
      (e.send side mark nowMs nowUs opened).2 := by
  simp only [send]
  cases halloc : e.slotAlloc with
  | none =>
    dsimp only
    split_ifs with hcool hdry hcred
    · exact .stays rfl rfl (.inl rfl)
    · exact .stays rfl rfl (.inr hdry)
    · exact .stays rfl rfl (.inl rfl)
    · exact .stays rfl rfl (.inl rfl)
  | some slot =>
    dsimp only
    split_ifs with hcool hdry hcred hopened
    · exact .stays rfl rfl (.inl rfl)
    · exact .stays rfl rfl (.inr hdry)
    · exact .stays rfl rfl (.inl rfl)
    · refine .goes rfl rfl rfl ⟨Bool.eq_false_iff.mpr hdry, ?_⟩ (BitVec.not_lt.mp hcool)
      simpa using hcred
    · exact .stays rfl rfl (.inl rfl)

/-- An order that goes out is followed. -/
theorem following_send (e : Exec) (side : Word) (mark : Int) (nowMs nowUs : BitVec 64)
    (opened : Bool) (side' : Word) :
    ((e.send side mark nowMs nowUs opened).2.following side').card ≤ (e.following side').card +
      if (e.send side mark nowMs nowUs opened).1.isSome = true ∧ fillOf side = side' then 1
      else 0 := by
  obtain ⟨-, -, hside, hothers⟩ := sends_send e side mark nowMs nowUs opened
  generalize e.send side mark nowMs nowUs opened = r at hside hothers
  obtain ⟨slot, e'⟩ := r
  dsimp only at hside hothers ⊢
  have hmem : ∀ s ∈ e'.following side', s ∈ e.following side' ∨ s ∈ slot ∧ fillOf side = side' := by
    intro s hs
    obtain ⟨hactive, hfill⟩ := mem_following.mp hs
    by_cases hslot : s ∈ slot
    · exact .inr ⟨hslot, by rw [← hside s hslot, hfill]⟩
    · have hsame := hothers s hslot hactive
      rw [hsame] at hactive hfill
      exact .inl (mem_following.mpr ⟨hactive, hfill⟩)
  by_cases hgoes : slot.isSome = true ∧ fillOf side = side'
  · obtain ⟨i, rfl⟩ := Option.isSome_iff_exists.mp hgoes.1
    rw [if_pos hgoes]
    refine (Finset.card_le_card fun s hs => ?_).trans (Finset.card_insert_le i _)
    rcases hmem s hs with h | ⟨h, -⟩
    · exact Finset.mem_insert_of_mem h
    · rw [Option.mem_some_iff.mp h]
      exact Finset.mem_insert_self s _
  · rw [if_neg hgoes, Nat.add_zero]
    refine Finset.card_le_card fun s hs => ?_
    rcases hmem s hs with h | ⟨h, hfill⟩
    · exact h
    · exact absurd ⟨Option.isSome_iff_exists.mpr ⟨s, h⟩, hfill⟩ hgoes

end Exec

namespace AppRun

open Exec

variable {x : AppRun} {exec : ExecConfig} {creds : Bool}

/-- The flow of a run: orders are spaced, and each has one fill at most, of one lot. -/
structure Flow (exec : ExecConfig) (creds : Bool) (x : AppRun) : Prop where
  cfg : x.exec.cfg = exec
  haveCredentials : x.exec.haveCredentials = creds
  real : x.orders ≠ [] → exec.dryRun = false ∧ creds = true
  last : ∀ o ∈ x.orders.head?, o.1 = x.exec.lastOrderMs
  spaced : List.IsChain (fun later earlier => exec.cooldownMs.setWidth 64 ≤ later.1 - earlier.1)
    x.orders
  filled : ∀ side, x.exec.fills.countP (·.1 = side) + (x.exec.following side).card ≤
    x.orders.countP (fillOf ·.2 = side)
  lots : ∀ f ∈ x.exec.fills, f.2.1 = 1

theorem flow_create (cfg : AppConfig) (exec : ExecConfig) (creds : Bool)
    (ram : Option (Addr → Word)) : (create cfg exec creds ram).Flow exec creds where
  cfg := rfl
  haveCredentials := rfl
  real h := absurd rfl h
  last := by rintro o ⟨⟩
  spaced := List.IsChain.nil
  filled side := by
    have hnone : (Exec.create exec creds).following side = ∅ := by
      refine Finset.eq_empty_of_forall_notMem fun s hs => ?_
      exact Bool.false_ne_true (mem_following.mp hs).1
    change _ + ((Exec.create exec creds).following side).card ≤ _
    rw [hnone]
    rfl
  lots f hf := absurd hf List.not_mem_nil

/-- What does not concern the orders. -/
theorem Flow.of_eq (h : x.Flow exec creds) {y : AppRun} (hexec : y.exec = x.exec)
    (horders : y.orders = x.orders) : y.Flow exec creds := by
  obtain ⟨h1, h2, h3, h4, h5, h6, h7⟩ := h
  rw [← hexec] at h1 h2 h4 h6 h7
  rw [← horders] at h3 h4 h5 h6
  exact ⟨h1, h2, h3, h4, h5, h6, h7⟩

/-- An order, or none. -/
theorem Flow.send (h : x.Flow exec creds) (r : Readings) (s : Word × Int) :
    (x.send r s).Flow exec creds := by
  have hfills := (sends_send x.exec s.1 s.2 r.nowMs r.nowUs r.opened).fills
  have hfollow := following_send x.exec s.1 s.2 r.nowMs r.nowUs r.opened
  have hgoes := goes_send x.exec s.1 s.2 r.nowMs r.nowUs r.opened
  simp only [AppRun.send]
  generalize x.exec.send s.1 s.2 r.nowMs r.nowUs r.opened = e' at hfills hfollow hgoes
  obtain ⟨slot, e'⟩ := e'
  dsimp only at hfills hfollow hgoes ⊢
  cases hgoes with
  | stays hcfg hcred hlast =>
    refine ⟨hcfg.trans h.cfg, hcred.trans h.haveCredentials, h.real, ?_, h.spaced, ?_, ?_⟩
    · intro o ho
      rcases hlast with hlast | hdry
      · exact (h.last o ho).trans hlast.symm
      · -- in a dry run there are no orders
        have hne : x.orders ≠ [] := by
          intro hnil
          rw [hnil] at ho
          cases ho
        rw [h.cfg, (h.real hne).1] at hdry
        exact absurd hdry Bool.false_ne_true
    · intro side
      have hside := hfollow side
      rw [if_neg fun hc => Bool.false_ne_true hc.1] at hside
      rw [hfills]
      exact (Nat.add_le_add_left hside _).trans (h.filled side)
    · rw [hfills]
      exact h.lots
  | goes hcfg hcred hlast hreal hcool =>
    rw [h.cfg, h.haveCredentials] at hreal
    rw [h.cfg] at hcool
    refine ⟨hcfg.trans h.cfg, hcred.trans h.haveCredentials, fun _ => hreal, ?_, ?_, ?_, ?_⟩
    · rintro o ⟨⟩
      exact hlast.symm
    · refine List.isChain_cons.mpr ⟨fun o ho => ?_, h.spaced⟩
      rw [h.last o ho]
      exact hcool
    · intro side
      have hside := hfollow side
      have hbefore := h.filled side
      change e'.fills.countP _ + (e'.following side).card ≤ ((r.nowMs, s.1) :: x.orders).countP _
      rw [hfills, List.countP_cons]
      by_cases hfill : fillOf s.1 = side
      · rw [if_pos ⟨rfl, hfill⟩] at hside
        rw [if_pos (decide_eq_true hfill)]
        omega
      · rw [if_neg fun hc => hfill hc.2] at hside
        omega
    · rw [hfills]
      exact h.lots

theorem Flow.handle (h : x.Flow exec creds) (ev : HostEvent) (r : Readings) :
    (x.handle ev r).Flow exec creds := by
  have hfold : ∀ (l : List (Word × Int)) (y : AppRun), y.Flow exec creds →
      (l.foldr (AppRun.send r) y).Flow exec creds := by
    intro l y hy
    induction l with
    | nil => exact hy
    | cons s l ih => exact ih.send r s
  exact hfold _ _ (h.of_eq rfl rfl)

/-- **Every event keeps the flow.** -/
theorem Flow.step (h : x.Flow exec creds) (e : LoopEvent) :
    (x.step e).Flow exec creds := by
  cases e with
  | feed ev nowUs r =>
    simp only [AppRun.step]
    cases (x.feed.feedCb nowUs ev).2 with
    | none => exact h.of_eq rfl rfl
    | some q =>
      refine Flow.handle ?_ _ r
      exact h.of_eq rfl rfl
  | signal seq side tick r => exact h.handle _ r
  | broker slot callback ev =>
    obtain ⟨hcfg, hcred, hlast⟩ := sameClock_deliver x.exec slot callback ev
    refine ⟨hcfg.trans h.cfg, hcred.trans h.haveCredentials, h.real,
      fun o ho => (h.last o ho).trans hlast.symm, h.spaced, fun side => ?_, fun f hf => ?_⟩
    · exact (fills_following_deliver x.exec slot callback ev side).trans (h.filled side)
    · exact (lot_deliver x.exec slot callback ev f hf).elim (h.lots f) id
  | execPoll now opened =>
    obtain ⟨hcfg, hcred, hlast⟩ := sameClock_poll x.exec now opened
    obtain ⟨hside, hactive, hfills⟩ := polls_poll x.exec now opened
    refine ⟨hcfg.trans h.cfg, hcred.trans h.haveCredentials, h.real,
      fun o ho => (h.last o ho).trans hlast.symm, h.spaced, fun side => ?_, ?_⟩
    · have hcard := Finset.card_le_card (following_subset hside hactive side)
      change (x.exec.poll now opened).2.fills.countP _ + _ ≤ _
      rw [hfills]
      exact (Nat.add_le_add_left hcard _).trans (h.filled side)
    · change ∀ f ∈ (x.exec.poll now opened).2.fills, _
      rw [hfills]
      exact h.lots
  | feedPoll nowUs refusedUs opened => exact h.of_eq rfl rfl
  | checkFeedAge nowUs =>
    simp only [AppRun.step, checkFeedAge]
    split_ifs
    · exact h
    · exact h.of_eq rfl rfl
    · exact h

end AppRun

/-- **The flow of the orders.** Whatever the exchange and the broker send, in any order, also on the
connection of another order: orders go out with the cooldown between them, none without credentials
or in a dry run; a fill is of one lot; and on each side there are no more fills, together with the
orders that are followed, than orders that went out. -/
theorem order_flow (cfg : AppConfig) (exec : ExecConfig) (haveCredentials : Bool)
    (ram : Option (Addr → Word)) (l : List LoopEvent) :
    let x := Trace.run AppRun.step (.create cfg exec haveCredentials ram) l
    List.IsChain (fun later earlier => exec.cooldownMs.setWidth 64 ≤ later.1 - earlier.1) x.orders ∧
      (x.orders ≠ [] → exec.dryRun = false ∧ haveCredentials = true) ∧
      (∀ f ∈ x.exec.fills, f.2.1 = 1) ∧
      ∀ side, x.exec.fills.countP (·.1 = side) + (x.exec.following side).card ≤
        x.orders.countP (Exec.fillOf ·.2 = side) := by
  have hrun := Trace.always_of_step (l := l) (I := AppRun.Flow exec haveCredentials)
    (fun _ e h => h.step e) (AppRun.flow_create cfg exec haveCredentials ram)
  have hend := hrun l List.prefix_rfl
  exact ⟨hend.spaced, hend.real, hend.lots, hend.filled⟩

end Fmma
