import Fmma.Board

/-!
# The fill mailbox: one slot and no acknowledgement

`fmma_fpga_report_fill` stores the side and the quantity of a fill and then the next value of
`FILL_SEQ`; a program that finds a new `FILL_SEQ` reads the side and the quantity and moves its
position. The host never learns that a fill has been read. A `Reporter` is the host with a record
of its reports and of how far the CPU has got with them. The position is the sum of the fills
reported since the program adopted `FILL_SEQ`, as long as no report disturbs the words of an
earlier one (`Reporter.Undisturbed`).
-/

namespace Fmma

/-- A fill as it is reported. -/
structure Fill where
  side : Word
  qty : Word
  deriving DecidableEq

/-- What a fill does to the inventory. -/
def Fill.signed (f : Fill) : Word := if f.side = fillBought then f.qty else -f.qty

/-- What a list of fills does to it. -/
def netOf (l : List Fill) : Word := (l.map Fill.signed).sum

theorem netOf_cons (f : Fill) (l : List Fill) : netOf (f :: l) = f.signed + netOf l := by
  rw [netOf, List.map_cons, List.sum_cons, netOf]

/-- What the CPU still has to read of the report it has noticed. -/
inductive MailStage
  | idle
  | side
  | qty
  deriving DecidableEq

/-- The host as a reporter of fills, with the record of the run. -/
structure Reporter where
  fpga : Fpga
  /-- The stores of the call under way. -/
  todo : List (Addr × Word)
  /-- The fill under way. -/
  current : Fill
  /-- The last fill reported. -/
  last : Fill
  /-- The fills reported since the program adopted `FILL_SEQ`, the last one first. -/
  fills : List Fill
  /-- The fills reported before. -/
  dropped : List Fill
  /-- The CPU has not read `FILL_SEQ` since the last report. -/
  pending : Bool
  /-- The fill the CPU is reading, and what of it it has to read. -/
  handled : Fill
  stage : MailStage
  /-- The program has declared its version: it has been through `INIT`. -/
  declared : Bool
  /-- The program has entered `INIT` and made no heartbeat since. -/
  fresh : Bool
  /-- The heartbeats since the host's last store to the mailbox, or since the last restart. -/
  beats : Nat
  deriving DecidableEq

namespace Reporter

/-- The host's own ledger: the signed sum of all fills reported. -/
def ledger (h : Reporter) : Word := netOf h.fills + netOf h.dropped

/-- The host begins a call of `report_fill`. -/
def report (h : Reporter) (f : Fill) : Reporter :=
  { h with
    todo := (h.fpga.reportFill f.side f.qty).1
    fpga := (h.fpga.reportFill f.side f.qty).2
    current := f
    beats := 0 }

/-- The host has made a store of the call; the last one, `FILL_SEQ`, reports the fill. -/
def stored (h : Reporter) : List (Addr × Word) → Reporter
  | [] => { h with
      todo := []
      last := h.current
      fills := h.current :: h.fills
      pending := true
      beats := 0 }
  | rest => { h with todo := rest, beats := 0 }

/-- What the host does once the program has declared its version: calls of `report_fill`, one
after the other, store by store. Any store to another word of the input block is possible at any
time, but for the start position. -/
inductive Act : Reporter → (Addr → Word) → Option (Access Addr Word) → Reporter → Prop
  | report {h : Reporter} {m : Addr → Word} (f : Fill) (hidle : h.todo = [])
    (hdeclared : h.declared = true) : Act h m none (h.report f)
  | store {h : Reporter} {m : Addr → Word} {a : Addr} {v : Word} {rest : List (Addr × Word)}
    (htodo : h.todo = (a, v) :: rest) (hin : inputBase ≤ a) :
    Act h m (some (.store a v)) (h.stored rest)
  | other {h : Reporter} {m : Addr → Word} (a : Addr) (v : Word)
    (hin : inputBase ≤ a ∧ a < outputBase) (hne : a ∉ [fillSeq, fillSide, fillQty, cfgPosition]) :
    Act h m (some (.store a v)) h

/-- In `INIT` the program adopts `FILL_SEQ`: whatever has been reported counts as seen. -/
def adopt (h : Reporter) : Reporter :=
  { h with pending := false, stage := .idle, dropped := h.fills ++ h.dropped, fills := [] }

/-- The program looks into the mailbox. -/
def look (h : Reporter) : Reporter :=
  { h with pending := false, stage := if h.pending then .side else .idle, handled := h.last }

/-- The program is sent back to `INIT`. -/
def restarted (h : Reporter) : Reporter := { h with stage := .idle, fresh := true, beats := 0 }

/-- What an access of the CPU says about the reports. -/
def observe (s : Strategy) (h : Reporter) (i : Addr) : Access Addr Word → Reporter
  | .load a =>
    if a = fillSeq then if i = s.pcOf .initFill then h.adopt else h.look
    else if a = fillSide then { h with stage := .qty }
    else if a = fillQty then { h with stage := .idle }
    else h
  | .store a _ =>
    if a = fwVersion then { h with declared := true }
    else if a = heartbeat then { h with fresh := false, beats := h.beats + 1 }
    else if a = cfgRestart then h.restarted
    else h

/-- The host asks for no restart. -/
def NoRestart (x : Option (Access Addr Word)) : Prop := ∀ v, x ≠ some (.store cfgRestart v)

/-- **The condition on the host's stores**: none changes a word of the mailbox that the CPU still
has to read for an earlier report, and the next `FILL_SEQ` is stored only after the CPU has read
the last one. -/
def Undisturbed (h : Reporter) (m : Addr → Word) : Option (Access Addr Word) → Prop
  | some (.store a v) =>
    (a = fillSide → m fillSide = v ∨ h.pending = false ∧ h.stage ≠ .side) ∧
      (a = fillQty → m fillQty = v ∨ h.pending = false ∧ h.stage = .idle) ∧
      (a = fillSeq → h.pending = false)
  | _ => True

instance (h : Reporter) (m : Addr → Word) : ∀ x, Decidable (h.Undisturbed m x)
  | some (.store _ _) => inferInstanceAs (Decidable (_ ∧ _ ∧ _))
  | some (.load _) => .isTrue trivial
  | none => .isTrue trivial

/-- The host has taken over a CPU in `INIT`: the handle has adopted the fill counter, and
nothing has been reported. -/
def Starts (start : Word) (m : Addr → Word) (h : Reporter) : Prop :=
  m cfgPosition = start ∧ m cfgRestart = 0 ∧ h.fpga.fillSeq = m fillSeq ∧ h.todo = [] ∧
    h.fills = [] ∧ h.dropped = [] ∧ h.pending = false ∧ h.stage = .idle ∧ h.declared = false ∧
    h.fresh = true ∧ h.beats = 0

end Reporter

/-- The host as a reporter of fills, with restarts: by `CFG_RESTART` and by the reset key. -/
def mailbox (s : Strategy) : Host Reporter where
  act := Reporter.Act
  observe h i x _ := h.observe s i x
  reset h h' := h' = h.restarted

/-- The host as a reporter of fills, without restarts. -/
def reporter (s : Strategy) : Host Reporter where
  act h m x h' := Reporter.Act h m x h' ∧ Reporter.NoRestart x
  observe h i x _ := h.observe s i x

/-- The host as a reporter that meets the condition. -/
def carefulReporter (s : Strategy) : Host Reporter :=
  (reporter s).restrict (fun _ _ _ _ => True) Reporter.Undisturbed

/-! ### The invariant -/

namespace Reporter

/-- Where the host is in its call, and what of it is in the RAM. -/
inductive Phase (m : Addr → Word) (h : Reporter) : Prop
  | idle (ht : h.todo = []) (hseq : h.fpga.fillSeq = m fillSeq)
  | begun (ht : h.todo = [(fillSide, h.current.side), (fillQty, h.current.qty),
      (fillSeq, h.fpga.fillSeq)]) (hseq : h.fpga.fillSeq = m fillSeq + 1)
  | side (ht : h.todo = [(fillQty, h.current.qty), (fillSeq, h.fpga.fillSeq)])
    (hseq : h.fpga.fillSeq = m fillSeq + 1) (hs : m fillSide = h.current.side)
  | qty (ht : h.todo = [(fillSeq, h.fpga.fillSeq)]) (hseq : h.fpga.fillSeq = m fillSeq + 1)
    (hs : m fillSide = h.current.side) (hq : m fillQty = h.current.qty)

/-- The fills the CPU has noticed: all but the last one, if that is pending. -/
def noticed (h : Reporter) : List Fill := if h.pending then h.fills.tail else h.fills

/-- The main loop: R14 is the counter of the last fill noticed, and an unnoticed fill is in the
mailbox as reported. -/
structure Running (h : Reporter) (m : Addr → Word) (fill : Word) : Prop where
  counter : m fillSeq = fill + if h.pending then 1 else 0
  mailbox : h.pending = true → m fillSide = h.last.side ∧ m fillQty = h.last.qty
  listed : h.pending = true → h.fills = h.last :: h.noticed

/-- Between two fills: the position, as published, is that of all fills noticed. -/
structure Even (start : Word) (h : Reporter) (m : Addr → Word) (r : Regs) : Prop where
  running : h.Running m r.fill
  stage : h.stage = .idle
  shown : m position = r.position
  applied : r.position = start + netOf h.noticed

/-- A fill has been noticed and not applied: the position is that of the ones before it. -/
def Applying (start : Word) (h : Reporter) (f : Fill) (p : Word) : Prop :=
  ∃ before, h.noticed = f :: before ∧ p = start + netOf before

/-- **The program's invariant**, point by point. -/
def Body (s : Strategy) (start : Word) (t : Thread) (m : Addr → Word) (h : Reporter) : Prop :=
  match t.point with
  | .initPosition => True
  | .initFill => t.regs.position = start
  | .clear i => h.Running m t.regs.fill ∧ h.stage = .idle ∧
      t.regs.position = start + netOf h.noticed ∧
      ∀ j < i, s.clearOrder j = position → m position = t.regs.position
  | .fillSide => h.Running m t.regs.fill ∧ h.stage = .side ∧
      m fillSide = h.handled.side ∧ m fillQty = h.handled.qty ∧
      h.Applying start h.handled t.regs.position
  | .fillQty side => h.Running m t.regs.fill ∧ h.stage = .qty ∧
      side = h.handled.side ∧ m fillQty = h.handled.qty ∧
      h.Applying start h.handled t.regs.position
  | .addFill bought qty => h.Running m t.regs.fill ∧ h.stage = .idle ∧
      ∃ f : Fill, bought = (f.side == fillBought) ∧ qty = f.qty ∧
        h.Applying start f t.regs.position
  | .storePosition => h.Running m t.regs.fill ∧ h.stage = .idle ∧
      t.regs.position = start + netOf h.noticed
  | _ => h.Even start m t.regs

/-- The points of a pass before the program looks into the mailbox. -/
def beforeMailbox (p : Point) : Prop := p = .restart ∨ p = .clearRestart ∨ p = .fillSeq

/-- The points of a pass at which the program applies a fill. -/
def applying : Point → Prop
  | .fillSide => True
  | .fillQty _ => True
  | .addFill _ _ => True
  | .storePosition => True
  | _ => False

/-- Once the host has been quiet for a heartbeat, the first look into the mailbox clears it; after
two heartbeats every fill has been applied. -/
structure Settling (t : Thread) (h : Reporter) : Prop where
  boot : t.point.booting = true → h.beats = 0
  one : 1 ≤ h.beats → beforeMailbox t.point ∨ h.pending = false
  two : 2 ≤ h.beats → h.pending = false ∧ ¬applying t.point

/-- From `INIT` to the first heartbeat: once `FILL_SEQ` is adopted, no fill is noticed. -/
def Early (p : Point) (h : Reporter) : Prop :=
  match p with
  | .initPosition => True
  | .initFill => True
  | .clear _ => h.noticed = []
  | .setStatus => h.noticed = []
  | .setVersion => h.noticed = []
  | .loop => h.noticed = []
  | .beat => h.noticed = []
  | _ => False

/-- The invariant of the board. -/
structure Inv (s : Strategy) (start : Word) (t : Thread) (m : Addr → Word) (h : Reporter) :
    Prop where
  config : m cfgPosition = start
  phase : h.Phase m
  body : h.Body s start t m
  fresh : h.fresh = true → h.Early t.point
  settling : h.Settling t

/-- `INIT` begins with the invariant. -/
theorem Starts.inv {s : Strategy} {start : Word} {m : Addr → Word} {h : Reporter} {r : Regs}
    (hs : h.Starts start m) : Inv s start (Thread.initial s r) m h := by
  obtain ⟨hpos, hrestart, hseq, htodo, hfills, hdropped, hpending, hstage, hdecl, hfresh, hb⟩ := hs
  refine ⟨hpos, .idle htodo hseq, trivial, fun _ => trivial, fun _ => hb, fun h1 => ?_,
    fun h2 => ?_⟩ <;> omega

/-! ### The host's steps -/

variable {s : Strategy} {start : Word} {t : Thread} {m m' : Addr → Word} {h h' : Reporter}
  {x : Option (Access Addr Word)} {r : Regs}

/-- What the program has to know of the RAM is the mailbox, while it has to read it. -/
theorem Body.congr (hb : h.Body s start t m) (hpos : m' position = m position)
    (hseq : m' fillSeq = m fillSeq)
    (hside : h.pending = true ∨ h.stage = .side → m' fillSide = m fillSide)
    (hqty : h.pending = true ∨ h.stage ≠ .idle → m' fillQty = m fillQty) :
    h.Body s start t m' := by
  have hrun : ∀ fill, h.Running m fill → h.Running m' fill := fun fill hr =>
    ⟨hseq ▸ hr.counter, fun hp => by
      rw [hside (.inl hp), hqty (.inl hp)]
      exact hr.mailbox hp, hr.listed⟩
  obtain ⟨point, r⟩ := t
  cases point with
  | initPosition => exact hb
  | initFill => exact hb
  | clear i => exact ⟨hrun _ hb.1, hb.2.1, hb.2.2.1, fun j hj hc => hpos ▸ hb.2.2.2 j hj hc⟩
  | fillSide =>
    obtain ⟨h1, h2, h3, h4, h5⟩ := hb
    refine ⟨hrun _ h1, h2, ?_, ?_, h5⟩
    · rw [hside (.inr h2), h3]
    · rw [hqty (.inr (by rw [h2]; decide)), h4]
  | fillQty side =>
    obtain ⟨h1, h2, h3, h4, h5⟩ := hb
    refine ⟨hrun _ h1, h2, h3, ?_, h5⟩
    rw [hqty (.inr (by rw [h2]; decide)), h4]
  | addFill b q => exact ⟨hrun _ hb.1, hb.2⟩
  | storePosition => exact ⟨hrun _ hb.1, hb.2⟩
  | _ => exact ⟨hrun _ hb.running, hb.stage, hpos ▸ hb.shown, hb.applied⟩

/-- The fields of the record that the program's invariant looks at. -/
def reported (h : Reporter) : Fill × List Fill × Bool × Fill × MailStage :=
  (h.last, h.fills, h.pending, h.handled, h.stage)

/-- Only those fields matter. -/
theorem Body.of_reported (hb : h.Body s start t m) (heq : h'.reported = h.reported) :
    h'.Body s start t m := by
  simp only [reported, Prod.mk.injEq] at heq
  obtain ⟨hlast, hfills, hpending, hhandled, hstage⟩ := heq
  have hnoticed : h'.noticed = h.noticed := by rw [noticed, noticed, hpending, hfills]
  have hrun : ∀ fill, h.Running m fill → h'.Running m fill := fun fill hr =>
    ⟨hpending ▸ hr.counter, fun hp => hlast ▸ hr.mailbox (hpending ▸ hp), fun hp => by
      rw [hfills, hlast, hnoticed, ← hr.listed (hpending ▸ hp)]⟩
  have happly : ∀ f p, h.Applying start f p → h'.Applying start f p := by
    rintro f p ⟨before, hb, hp⟩
    exact ⟨before, hnoticed.trans hb, hp⟩
  obtain ⟨point, r⟩ := t
  cases point with
  | initPosition => trivial
  | initFill => exact hb
  | clear i =>
    exact ⟨hrun _ hb.1, hstage ▸ hb.2.1, hb.2.2.1.trans (by rw [hnoticed]), hb.2.2.2⟩
  | fillSide =>
    obtain ⟨h1, h2, h3, h4, h5⟩ := hb
    exact ⟨hrun _ h1, hstage ▸ h2, hhandled ▸ h3, hhandled ▸ h4, hhandled ▸ happly _ _ h5⟩
  | fillQty side =>
    obtain ⟨h1, h2, h3, h4, h5⟩ := hb
    exact ⟨hrun _ h1, hstage ▸ h2, hhandled ▸ h3, hhandled ▸ h4, hhandled ▸ happly _ _ h5⟩
  | addFill b q =>
    obtain ⟨h1, h2, f, h3, h4, h5⟩ := hb
    exact ⟨hrun _ h1, hstage ▸ h2, f, h3, h4, happly _ _ h5⟩
  | storePosition =>
    exact ⟨hrun _ hb.1, hstage ▸ hb.2.1, hb.2.2.trans (by rw [hnoticed])⟩
  | _ =>
    exact ⟨hrun _ hb.running, hstage ▸ hb.stage, hb.shown, hb.applied.trans (by rw [hnoticed])⟩

/-- A fill that has just been reported has not been noticed. -/
theorem noticed_stored (hp : h.pending = false) : (h.stored []).noticed = h.noticed := by
  rw [noticed, noticed, hp]
  rfl

/-- **The last store of a report** makes the fill one that is owed. -/
theorem Body.complete (hb : h.Body s start t m) (hp : h.pending = false)
    (hseq : h.fpga.fillSeq = m fillSeq + 1) (hside : m fillSide = h.current.side)
    (hqty : m fillQty = h.current.qty) :
    (h.stored []).Body s start t (Function.update m fillSeq h.fpga.fillSeq) := by
  have hne : ∀ a, a ≠ fillSeq → Function.update m fillSeq h.fpga.fillSeq a = m a :=
    fun a ha => Function.update_of_ne ha _ _
  have hrun : ∀ fill, h.Running m fill →
      (h.stored []).Running (Function.update m fillSeq h.fpga.fillSeq) fill := by
    intro fill hr
    refine ⟨?_, fun _ => ?_, fun _ => rfl⟩
    · have hc := hr.counter
      rw [hp, if_neg Bool.false_ne_true] at hc
      have hfill : m fillSeq = fill := hc.trans (BitVec.add_zero _)
      rw [Function.update_self, hseq, hfill]
      rfl
    · rw [hne _ (by decide), hne _ (by decide)]
      exact ⟨hside, hqty⟩
  have hnoticed := noticed_stored hp
  have happly : ∀ f p, h.Applying start f p → (h.stored []).Applying start f p := by
    rintro f p ⟨before, hb, hp⟩
    exact ⟨before, hnoticed.trans hb, hp⟩
  obtain ⟨point, r⟩ := t
  cases point with
  | initPosition => trivial
  | initFill => exact hb
  | clear i =>
    exact ⟨hrun _ hb.1, hb.2.1, hb.2.2.1.trans (by rw [hnoticed]), fun j hj hc =>
      (hne _ (by decide)).trans (hb.2.2.2 j hj hc)⟩
  | fillSide =>
    obtain ⟨h1, h2, h3, h4, h5⟩ := hb
    exact ⟨hrun _ h1, h2, (hne _ (by decide)).trans h3, (hne _ (by decide)).trans h4,
      happly _ _ h5⟩
  | fillQty side =>
    obtain ⟨h1, h2, h3, h4, h5⟩ := hb
    exact ⟨hrun _ h1, h2, h3, (hne _ (by decide)).trans h4, happly _ _ h5⟩
  | addFill b q =>
    obtain ⟨h1, h2, f, h3, h4, h5⟩ := hb
    exact ⟨hrun _ h1, h2, f, h3, h4, happly _ _ h5⟩
  | storePosition => exact ⟨hrun _ hb.1, hb.2.1, hb.2.2.trans (by rw [hnoticed])⟩
  | _ =>
    exact ⟨hrun _ hb.running, hb.stage, (hne _ (by decide)).trans hb.shown,
      hb.applied.trans (by rw [hnoticed])⟩

/-- A store to the mailbox that the condition allows. -/
theorem Body.mailbox (hb : h.Body s start t m) {a : Addr} {v : Word}
    (hx : h.Undisturbed m (some (.store a v))) (ha : a = fillSide ∨ a = fillQty) :
    h.Body s start t (Function.update m a v) := by
  refine hb.congr ?_ ?_ (fun hs => ?_) (fun hq => ?_)
  · exact Function.update_of_ne (by rcases ha with rfl | rfl <;> decide) _ _
  · exact Function.update_of_ne (by rcases ha with rfl | rfl <;> decide) _ _
  · rcases ha with rfl | rfl
    · rcases hx.1 rfl with heq | ⟨hp, hst⟩
      · rw [Function.update_self, heq]
      · rcases hs with hs | hs
        · rw [hp] at hs
          cases hs
        · exact absurd hs hst
    · exact Function.update_of_ne (by decide) _ _
  · rcases ha with rfl | rfl
    · exact Function.update_of_ne (by decide) _ _
    · rcases hx.2.1 rfl with heq | ⟨hp, hst⟩
      · rw [Function.update_self, heq]
      · rcases hq with hq | hq
        · rw [hp] at hq
          cases hq
        · exact absurd hst hq

/-- The stores of a call are to the mailbox. -/
theorem Inv.store_addr (hI : Inv s start t m h) {a : Addr} {v : Word} {rest : List (Addr × Word)}
    (htodo : h.todo = (a, v) :: rest) : a ∈ [fillSide, fillQty, fillSeq] := by
  cases hI.phase with
  | idle ht => rw [ht] at htodo; cases htodo
  | begun ht => rw [ht] at htodo; cases htodo; decide
  | side ht => rw [ht] at htodo; cases htodo; decide
  | qty ht => rw [ht] at htodo; cases htodo; decide

/-- Nothing has settled where the count of heartbeats has just begun. -/
theorem Settling.of_beats (hb : h.beats = 0) : h.Settling t := by
  refine ⟨fun _ => hb, fun h1 => ?_, fun h2 => ?_⟩ <;> omega

/-- What is early depends on the fills noticed only. -/
theorem Early.congr {p : Point} (he : h.Early p) (hn : h'.noticed = h.noticed) : h'.Early p := by
  cases p
  all_goals first
    | exact he
    | exact hn.trans he

/-- Everything the host does under the condition keeps the invariant. -/
theorem Inv.act (hI : Inv s start t m h) (hx : Act h m x h') (hok : h.Undisturbed m x) :
    Inv s start t (Access.applyOpt m x) h' := by
  obtain ⟨hconfig, hphase, hbody, hfresh, hsettling⟩ := hI
  cases hx with
  | report f hidle hdeclared =>
    refine ⟨hconfig, ?_, hbody.of_reported rfl, hfresh, .of_beats rfl⟩
    cases hphase with
    | idle ht hseq =>
      refine .begun rfl ?_
      change h.fpga.fillSeq + 1 = _
      rw [hseq]
      rfl
    | begun ht => rw [ht] at hidle; cases hidle
    | side ht => rw [ht] at hidle; cases hidle
    | qty ht => rw [ht] at hidle; cases hidle
  | other a v hin hne =>
    simp only [List.mem_cons, List.not_mem_nil, or_false, not_or] at hne
    obtain ⟨h1, h2, h3, h4⟩ := hne
    have hpos : position ≠ a := by
      rintro rfl
      exact absurd hin.2 (by decide)
    have hupd : ∀ b, b ≠ a → Function.update m a v b = m b := fun b hb =>
      Function.update_of_ne hb _ _
    rw [Access.applyOpt_some, Access.apply_store]
    refine ⟨(hupd _ (Ne.symm h4)).trans hconfig, ?_,
      hbody.congr (hupd _ hpos) (hupd _ (Ne.symm h1)) (fun _ => hupd _ (Ne.symm h2))
        fun _ => hupd _ (Ne.symm h3), hfresh, hsettling⟩
    cases hphase with
    | idle ht hseq => exact .idle ht (hseq.trans (hupd _ (Ne.symm h1)).symm)
    | begun ht hseq => exact .begun ht (by rwa [hupd _ (Ne.symm h1)])
    | side ht hseq hs =>
      exact .side ht (by rwa [hupd _ (Ne.symm h1)]) (by rwa [hupd _ (Ne.symm h2)])
    | qty ht hseq hs hq =>
      exact .qty ht (by rwa [hupd _ (Ne.symm h1)]) (by rwa [hupd _ (Ne.symm h2)])
        (by rwa [hupd _ (Ne.symm h3)])
  | @store a v rest htodo hin =>
    rw [Access.applyOpt_some, Access.apply_store]
    cases hphase with
    | idle ht => rw [ht] at htodo; cases htodo
    | begun ht hseq =>
      rw [ht] at htodo
      cases htodo
      refine ⟨(Function.update_of_ne (by decide) _ _).trans hconfig, .side rfl ?_ ?_, ?_, hfresh,
        .of_beats rfl⟩
      · exact hseq.trans (congrArg (· + 1) (Function.update_of_ne (by decide) _ _).symm)
      · exact Function.update_self _ _ _
      · exact (hbody.mailbox hok (.inl rfl)).of_reported rfl
    | side ht hseq hs =>
      rw [ht] at htodo
      cases htodo
      refine ⟨(Function.update_of_ne (by decide) _ _).trans hconfig, .qty rfl ?_ ?_ ?_, ?_, hfresh,
        .of_beats rfl⟩
      · exact hseq.trans (congrArg (· + 1) (Function.update_of_ne (by decide) _ _).symm)
      · exact (Function.update_of_ne (by decide) _ _).trans hs
      · exact Function.update_self _ _ _
      · exact (hbody.mailbox hok (.inr rfl)).of_reported rfl
    | qty ht hseq hs hq =>
      rw [ht] at htodo
      cases htodo
      have hpending := hok.2.2 rfl
      refine ⟨(Function.update_of_ne (by decide) _ _).trans hconfig, .idle rfl ?_, ?_, ?_,
        .of_beats rfl⟩
      · exact (Function.update_self fillSeq h.fpga.fillSeq m).symm
      · exact hbody.complete hpending hseq hs hq
      · exact fun hf => (hfresh hf).congr (noticed_stored hpending)

/-! ### The program's steps -/

section Steps

variable {y : Access Addr Word} {i : Addr}

/-- What an access says about the reports changes nothing of the host's calls. -/
theorem observe_call (s : Strategy) (h : Reporter) (i : Addr) (y : Access Addr Word) :
    (h.observe s i y).todo = h.todo ∧ (h.observe s i y).current = h.current ∧
      (h.observe s i y).fpga = h.fpga := by
  cases y <;> simp only [observe] <;> split_ifs <;> exact ⟨rfl, rfl, rfl⟩

/-- Where the host is in its call depends on the mailbox only. -/
theorem Phase.congr (hp : h.Phase m) (htodo : h'.todo = h.todo) (hcur : h'.current = h.current)
    (hfpga : h'.fpga = h.fpga) (hseq : m' fillSeq = m fillSeq) (hside : m' fillSide = m fillSide)
    (hqty : m' fillQty = m fillQty) : h'.Phase m' := by
  cases hp with
  | idle h1 h2 => exact .idle (htodo.trans h1) (by rw [hfpga, hseq, h2])
  | begun h1 h2 => exact .begun (by rw [htodo, hcur, hfpga, h1]) (by rw [hfpga, hseq, h2])
  | side h1 h2 h3 =>
    exact .side (by rw [htodo, hcur, hfpga, h1]) (by rw [hfpga, hseq, h2]) (by rw [hside, hcur, h3])
  | qty h1 h2 h3 h4 =>
    exact .qty (by rw [htodo, hfpga, h1]) (by rw [hfpga, hseq, h2]) (by rw [hside, hcur, h3])
      (by rw [hqty, hcur, h4])

/-- What `Even` depends on. -/
theorem Even.congr {r' : Regs} (he : h.Even start m r) (hseq : m' fillSeq = m fillSeq)
    (hside : m' fillSide = m fillSide) (hqty : m' fillQty = m fillQty)
    (hshown : m' position = m position) (hpos : r'.position = r.position)
    (hfill : r'.fill = r.fill) : h.Even start m' r' := by
  obtain ⟨⟨hcounter, hmailbox, hlisted⟩, hstage, hpublished, happlied⟩ := he
  refine ⟨⟨by rw [hseq, hfill, hcounter], fun hp => ?_, hlisted⟩, hstage,
    by rw [hshown, hpos, hpublished], by rw [hpos, happlied]⟩
  rw [hside, hqty]
  exact hmailbox hp

/-- In the tail of a pass and at the head of the next one the invariant is `Even`. -/
theorem Body.of_even (he : h.Even start m t.regs) (ht : t.point.tailOrLoop) :
    h.Body s start t m := by
  obtain ⟨point, r⟩ := t
  cases point
  all_goals first
    | exact he
    | (rcases ht with ht | ht <;> cases ht)

theorem Body.even (hb : h.Body s start t m) (ht : t.point.tail = true) :
    h.Even start m t.regs := by
  obtain ⟨point, r⟩ := t
  cases point
  all_goals first
    | exact hb
    | cases ht

/-- The tail of a pass says nothing about the reports. -/
theorem observe_tail (ht : t.point.tail = true) (hy : t.access s = some y) :
    h.observe s i y = h := by
  have haddr := Thread.access_tail ht hy
  cases y with
  | load a =>
    simp only [Access.addr_load, List.mem_cons, List.not_mem_nil, or_false, not_or] at haddr
    simp only [observe, haddr, if_false]
  | store a v =>
    simp only [Access.addr_store, List.mem_cons, List.not_mem_nil, or_false, not_or] at haddr
    simp only [observe, haddr, if_false]

/-- No access of the tail of a pass stores a new position. -/
theorem position_tail (ht : t.point.tail = true) (hy : t.access s = some y) :
    y.apply m position = m position := by
  refine Access.apply_of_ne ?_
  rintro a v rfl rfl
  have haddr := Thread.access_tail ht hy
  exact absurd haddr (by simp)

/-- One of the words that `INIT` clears is `POSITION`. -/
theorem exists_clearOrder (s : Strategy) : ∃ j, s.clearOrder j = position := by
  cases s with
  | trading => exact ⟨3, rfl⟩
  | marketMaker => exact ⟨6, rfl⟩

/-- Clearing a word is not observed. -/
theorem observe_clear (s : Strategy) (j : Fin 7) (v : Word) :
    h.observe s i (.store (s.clearOrder j) v) = h := by
  fin_cases j <;> cases s <;> rfl

/-- The load of `FILL_SEQ` in `INIT`. -/
theorem observe_initFill (s : Strategy) (h : Reporter) :
    h.observe s (s.pcOf .initFill) (.load fillSeq) = h.adopt := by
  simp [observe]

/-- The load of `FILL_SEQ` in a pass. -/
theorem observe_fillSeq (s : Strategy) (h : Reporter) :
    h.observe s (s.pcOf .fillSeq) (.load fillSeq) = h.look := by
  have hne : s.pcOf .fillSeq ≠ s.pcOf .initFill := by cases s <;> decide
  simp only [observe, hne, if_true, if_false]

/-- Settling goes on where no fill is met. -/
theorem Settling.step {t' : Thread} (hs : h.Settling t) (hboot : t'.point.booting = false)
    (hbeats : h'.beats = h.beats) (hpending : h.pending = false → h'.pending = false)
    (hbefore : beforeMailbox t.point → h'.pending = false)
    (happlying : applying t'.point → applying t.point) : h'.Settling t' := by
  refine ⟨fun hb => ?_, fun h1 => .inr ?_, fun h2 => ?_⟩
  · rw [hboot] at hb
    cases hb
  · rcases hs.one (hbeats ▸ h1) with hb | hp
    · exact hbefore hb
    · exact hpending hp
  · obtain ⟨hp, ha⟩ := hs.two (hbeats ▸ h2)
    exact ⟨hpending hp, fun h' => ha (happlying h')⟩

theorem booting_tailOrLoop {p : Point} (h : p.tailOrLoop) : p.booting = false := by
  cases p
  all_goals first
    | rfl
    | (rcases h with h | h <;> cases h)

theorem not_applying_tailOrLoop {p : Point} (h : p.tailOrLoop) : ¬applying p := by
  intro ha
  cases p
  all_goals first
    | exact ha
    | (rcases h with h | h <;> cases h)

theorem not_beforeMailbox_tail {p : Point} (h : p.tail = true) : ¬beforeMailbox p := by
  rintro (rfl | rfl | rfl) <;> cases h

/-- A program that has looked into the mailbox, or adopted it. -/
theorem Running.of_read (hp : h.pending = false) {fill : Word} (hfill : m fillSeq = fill) :
    h.Running m fill := by
  refine ⟨?_, fun hp' => ?_, fun hp' => ?_⟩
  · rw [hp, hfill]
    exact (BitVec.add_zero _).symm
  · rw [hp] at hp'
    cases hp'
  · rw [hp] at hp'
    cases hp'

/-- Applying a fill: the position is then that of all fills noticed. -/
theorem Applying.apply {f : Fill} {p : Word} (ha : h.Applying start f p) :
    (if (f.side == fillBought) = true then p + f.qty else p - f.qty) = start + netOf h.noticed := by
  obtain ⟨before, hnoticed, rfl⟩ := ha
  rw [hnoticed, netOf_cons]
  simp only [beq_iff_eq, Fill.signed]
  split_ifs
  · rw [BitVec.add_assoc, BitVec.add_comm f.qty]
  · rw [BitVec.sub_eq_add_neg, BitVec.add_assoc, BitVec.add_comm (-f.qty)]

/-- The steps without an access. -/
theorem Inv.internal (hI : Inv s start t m h) (hnone : t.access s = none) :
    Inv s start (t.step s m) m h := by
  obtain ⟨hconfig, hphase, hbody, hfresh, hsettling⟩ := hI
  rw [Thread.step_none hnone]
  obtain ⟨point, r⟩ := t
  cases point with
  | loop =>
    refine ⟨hconfig, hphase, ?_, hfresh, ?_⟩
    · exact ⟨hbody.running, hbody.stage, hbody.shown, hbody.applied⟩
    · exact hsettling.step rfl rfl id (by rintro (hp | hp | hp) <;> cases hp) False.elim
  | addFill bought qty =>
    obtain ⟨hrun, hstage, f, rfl, rfl, ha⟩ := hbody
    refine ⟨hconfig, hphase, ⟨⟨hrun.counter, hrun.mailbox, hrun.listed⟩, hstage, ha.apply⟩,
      fun hf => (hfresh hf).elim, ?_⟩
    exact hsettling.step rfl rfl id (by rintro (hp | hp | hp) <;> cases hp) fun _ => trivial
  | commit seq =>
    have hsame := Thread.resume_tail (s := s) (t := ⟨.commit seq, r⟩) rfl 0
    refine ⟨hconfig, hphase, .of_even (Even.congr hbody rfl rfl rfl rfl hsame.position hsame.fill)
      hsame.point, fun hf => (hfresh hf).elim, ?_⟩
    exact hsettling.step (booting_tailOrLoop hsame.point) rfl id
      (fun hp => absurd hp (not_beforeMailbox_tail rfl))
      fun ha => absurd ha (not_applying_tailOrLoop hsame.point)
  | _ => cases hnone

/-- The invariant of the program after an access. -/
theorem Body.access (hI : Inv s start t m h) (hy : t.access s = some y) :
    (h.observe s (s.pcOf t.point) y).Body s start (t.step s m) (y.apply m) := by
  obtain ⟨hconfig, hphase, hbody, -, -⟩ := hI
  have hseq : y.apply m fillSeq = m fillSeq := Strategy.apply_input hy (by decide) (by decide)
  have hside : y.apply m fillSide = m fillSide := Strategy.apply_input hy (by decide) (by decide)
  have hqty : y.apply m fillQty = m fillQty := Strategy.apply_input hy (by decide) (by decide)
  by_cases htail : t.point.tail = true
  · have hsame := Thread.resume_tail (s := s) htail (t.reads s m)
    rw [observe_tail htail hy]
    exact .of_even ((hbody.even htail).congr hseq hside hqty (position_tail htail hy)
      hsame.position hsame.fill) hsame.point
  obtain ⟨point, r⟩ := t
  cases point with
  | initPosition =>
    cases hy
    exact hconfig
  | initFill =>
    cases hy
    rw [observe_initFill]
    refine ⟨.of_read rfl rfl, rfl, ?_, fun j hj => absurd hj (Nat.not_lt_zero j)⟩
    exact Eq.trans hbody (BitVec.add_zero _).symm
  | clear i =>
    obtain ⟨hrun, hstage, happlied, hdone⟩ := hbody
    cases hy
    rw [observe_clear]
    have hrun' : h.Running (Function.update m (s.clearOrder i)
        (if s.clearOrder i = position then r.position else 0)) r.fill :=
      ⟨hseq.trans hrun.counter, fun hp => ⟨hside.trans (hrun.mailbox hp).1,
        hqty.trans (hrun.mailbox hp).2⟩, hrun.listed⟩
    have hupd := s.clear_update hdone (v := if s.clearOrder i = position then r.position else 0)
      fun hc => if_pos hc
    by_cases hlt : i.val < 6
    · have hstep : Thread.step s ⟨.clear i, r⟩ m = ⟨.clear ⟨i + 1, by omega⟩, r⟩ := dif_pos hlt
      rw [hstep]
      refine ⟨hrun', hstage, happlied, fun j hj hc => hupd j ?_ hc⟩
      exact Fin.le_def.mpr (Nat.lt_succ_iff.mp (Fin.lt_def.mp hj))
    · have hstep : Thread.step s ⟨.clear i, r⟩ m = ⟨.setStatus, r⟩ := dif_neg hlt
      rw [hstep]
      obtain ⟨j, hj⟩ := exists_clearOrder s
      exact ⟨hrun', hstage, hupd j (Fin.le_def.mpr (by omega)) hj, happlied⟩
  | setStatus =>
    cases hy
    exact ⟨⟨hbody.running.counter, hbody.running.mailbox, hbody.running.listed⟩, hbody.stage,
      hbody.shown, hbody.applied⟩
  | setVersion =>
    cases hy
    exact ⟨⟨hbody.running.counter, hbody.running.mailbox, hbody.running.listed⟩, hbody.stage,
      hbody.shown, hbody.applied⟩
  | beat =>
    cases hy
    exact ⟨⟨hbody.running.counter, hbody.running.mailbox, hbody.running.listed⟩, hbody.stage,
      hbody.shown, hbody.applied⟩
  | restart =>
    cases hy
    rw [Thread.step_load rfl]
    simp only [Thread.resume]
    split_ifs <;> exact hbody
  | clearRestart => trivial
  | fillSeq =>
    cases hy
    have hcounter := hbody.running.counter
    have happlied := hbody.applied
    rw [Thread.step_load rfl, observe_fillSeq]
    cases hp : h.pending with
    | true =>
      -- a new fill: the mailbox still holds it
      rw [hp, if_pos rfl] at hcounter
      have hne : m fillSeq ≠ r.fill := by
        rw [hcounter]
        intro heq
        exact absurd (BitVec.add_right_eq_self.mp heq) (by decide)
      have hlook : h.look = { h with pending := false, stage := .side, handled := h.last } := by
        rw [look, hp]
        rfl
      rw [hlook]
      simp only [Thread.resume, hne, if_false]
      exact ⟨.of_read rfl rfl, rfl, (hbody.running.mailbox hp).1, (hbody.running.mailbox hp).2,
        h.noticed, hbody.running.listed hp, happlied⟩
    | false =>
      rw [hp, if_neg Bool.false_ne_true] at hcounter
      have heq : m fillSeq = r.fill := hcounter.trans (BitVec.add_zero _)
      have hlook : h.look = { h with pending := false, stage := .idle, handled := h.last } := by
        rw [look, hp]
        rfl
      rw [hlook]
      simp only [Thread.resume, heq, if_true]
      rw [noticed, hp] at happlied
      exact ⟨.of_read rfl heq, rfl, hbody.shown, happlied⟩
  | fillSide =>
    obtain ⟨h1, h2, h3, h4, h5⟩ := hbody
    cases hy
    exact ⟨⟨h1.counter, h1.mailbox, h1.listed⟩, rfl, h3, h4, h5⟩
  | fillQty side =>
    obtain ⟨h1, h2, h3, h4, h5⟩ := hbody
    cases hy
    exact ⟨⟨h1.counter, h1.mailbox, h1.listed⟩, rfl, h.handled, by rw [← h3], h4, h5⟩
  | storePosition =>
    obtain ⟨h1, h2, h3⟩ := hbody
    cases hy
    refine ⟨⟨h1.counter, h1.mailbox, h1.listed⟩, h2, ?_, h3⟩
    change Function.update m position r.position position = r.position
    exact Function.update_self _ _ _
  | loop => cases hy
  | addFill b q => cases hy
  | _ => exact absurd rfl htail

/-- Two heartbeats after the last store of the host, its last fill has been applied. -/
theorem Settling.access (hI : Inv s start t m h) (hy : t.access s = some y) :
    (h.observe s (s.pcOf t.point) y).Settling (t.step s m) := by
  obtain ⟨-, -, hbody, -, hsettling⟩ := hI
  by_cases htail : t.point.tail = true
  · have hnext := (Thread.resume_tail (s := s) htail (t.reads s m)).point
    rw [observe_tail htail hy]
    exact hsettling.step (booting_tailOrLoop hnext) rfl id
      (fun hp => absurd hp (not_beforeMailbox_tail htail))
      fun ha => absurd ha (not_applying_tailOrLoop hnext)
  obtain ⟨point, r⟩ := t
  cases point with
  | initPosition =>
    cases hy
    exact .of_beats (hsettling.boot rfl)
  | initFill =>
    cases hy
    rw [observe_initFill]
    exact .of_beats (hsettling.boot rfl)
  | clear i =>
    cases hy
    rw [observe_clear]
    exact .of_beats (hsettling.boot rfl)
  | setStatus =>
    cases hy
    exact .of_beats (hsettling.boot rfl)
  | setVersion =>
    cases hy
    exact .of_beats (h := { h with declared := true }) (hsettling.boot rfl)
  | beat =>
    cases hy
    refine ⟨by rintro ⟨⟩, fun _ => .inl (.inl rfl), fun h2 => ⟨?_, id⟩⟩
    rcases hsettling.one (Nat.le_of_succ_le_succ h2) with (hb | hb | hb) | hp
    · cases hb
    · cases hb
    · cases hb
    · exact hp
  | restart =>
    cases hy
    rw [Thread.step_load rfl]
    simp only [Thread.resume]
    split_ifs
    · exact ⟨by rintro ⟨⟩, fun _ => .inl (.inr (.inr rfl)), fun h2 => ⟨(hsettling.two h2).1, id⟩⟩
    · exact ⟨by rintro ⟨⟩, fun _ => .inl (.inr (.inl rfl)), fun h2 => ⟨(hsettling.two h2).1, id⟩⟩
  | clearRestart =>
    cases hy
    exact .of_beats (h := h.restarted) rfl
  | fillSeq =>
    cases hy
    rw [Thread.step_load rfl, observe_fillSeq]
    have hnext : (Thread.resume s ⟨.fillSeq, r⟩ (m fillSeq)).point.booting = false := by
      simp only [Thread.resume]
      split_ifs <;> rfl
    refine ⟨fun hb => ?_, fun _ => .inr rfl, fun h2 => ⟨rfl, ?_⟩⟩
    · rw [hnext] at hb
      cases hb
    · have hp := (hsettling.two h2).1
      have hcounter := hbody.running.counter
      rw [hp, if_neg Bool.false_ne_true] at hcounter
      have heq : m fillSeq = r.fill := hcounter.trans (BitVec.add_zero _)
      simp only [Thread.resume, heq, if_true]
      exact id
  | fillSide =>
    cases hy
    exact hsettling.step rfl rfl id (by rintro (hp | hp | hp) <;> cases hp) fun _ => trivial
  | fillQty side =>
    cases hy
    exact hsettling.step rfl rfl id (by rintro (hp | hp | hp) <;> cases hp) fun _ => trivial
  | storePosition =>
    cases hy
    exact hsettling.step rfl rfl id (by rintro (hp | hp | hp) <;> cases hp) fun _ => trivial
  | loop => cases hy
  | addFill b q => cases hy
  | _ => exact absurd rfl htail

/-- Up to the first heartbeat after `INIT` the program notices nothing. -/
theorem Early.access (hfresh : h.fresh = true → h.Early t.point) (hy : t.access s = some y)
    (hf : (h.observe s (s.pcOf t.point) y).fresh = true) :
    (h.observe s (s.pcOf t.point) y).Early (t.step s m).point := by
  by_cases htail : t.point.tail = true
  · rw [observe_tail htail hy] at hf
    have hearly := hfresh hf
    obtain ⟨point, r⟩ := t
    cases point
    all_goals first
      | exact hearly.elim
      | cases htail
  obtain ⟨point, r⟩ := t
  cases point with
  | initPosition =>
    cases hy
    trivial
  | initFill =>
    cases hy
    rw [observe_initFill]
    rfl
  | clear i =>
    cases hy
    rw [observe_clear] at hf ⊢
    have hearly : h.noticed = [] := hfresh hf
    by_cases hlt : i.val < 6
    · have hstep : Thread.step s ⟨.clear i, r⟩ m = ⟨.clear ⟨i + 1, by omega⟩, r⟩ := dif_pos hlt
      rw [hstep]
      exact hearly
    · have hstep : Thread.step s ⟨.clear i, r⟩ m = ⟨.setStatus, r⟩ := dif_neg hlt
      rw [hstep]
      exact hearly
  | setStatus =>
    cases hy
    exact hfresh hf
  | setVersion =>
    cases hy
    exact hfresh hf
  | beat =>
    cases hy
    cases hf
  | restart =>
    cases hy
    exact (hfresh hf).elim
  | clearRestart =>
    cases hy
    trivial
  | fillSeq =>
    cases hy
    rw [observe_fillSeq] at hf
    exact (hfresh hf).elim
  | fillSide =>
    cases hy
    exact (hfresh hf).elim
  | fillQty side =>
    cases hy
    exact (hfresh hf).elim
  | storePosition =>
    cases hy
    exact (hfresh hf).elim
  | loop => cases hy
  | addFill b q => cases hy
  | _ => exact absurd rfl htail

/-- The accesses of the program keep the invariant. -/
theorem Inv.access (hI : Inv s start t m h) (hy : t.access s = some y) :
    Inv s start (t.step s m) (y.apply m) (h.observe s (s.pcOf t.point) y) where
  config := (Strategy.apply_input hy (by decide) (by decide)).trans hI.config
  phase := hI.phase.congr (h.observe_call s _ y).1 (h.observe_call s _ y).2.1
    (h.observe_call s _ y).2.2 (Strategy.apply_input hy (by decide) (by decide))
    (Strategy.apply_input hy (by decide) (by decide))
    (Strategy.apply_input hy (by decide) (by decide))
  body := .access hI hy
  fresh := .access hI.fresh hy
  settling := .access hI hy

/-- So does the reset key. -/
theorem Inv.reset (hI : Inv s start t m h) (r : Regs) :
    Inv s start (Thread.initial s r) m h.restarted where
  config := hI.config
  phase := hI.phase.congr rfl rfl rfl rfl rfl rfl
  body := trivial
  fresh _ := trivial
  settling := .of_beats rfl

end Steps

/-- When the host has been quiet for two heartbeats, `POSITION` is the start position and the sum
of the fills reported since `INIT`. -/
theorem Inv.position_eq (hI : Inv s start t m h) (hbeats : 2 ≤ h.beats) :
    m position = start + netOf h.fills := by
  obtain ⟨hpending, hnot⟩ := hI.settling.two hbeats
  have hboot : t.point.booting = false := by
    by_contra hb
    have := hI.settling.boot (by simpa using hb)
    omega
  have heven : h.Even start m t.regs := by
    have hbody := hI.body
    obtain ⟨point, r⟩ := t
    cases point with
    | initPosition => cases hboot
    | initFill => cases hboot
    | clear i => cases hboot
    | fillSide => exact absurd trivial hnot
    | fillQty side => exact absurd trivial hnot
    | addFill b q => exact absurd trivial hnot
    | storePosition => exact absurd trivial hnot
    | _ => exact hbody
  rw [heven.shown, heven.applied, noticed, hpending]
  rfl

/-! ### One report at a time -/

/-- A report is under way only after the program has read the one before. -/
def Waited (h : Reporter) : Prop := h.todo ≠ [] → h.pending = false ∧ h.stage = .idle

/-- The condition that makes it so: a call begins only then. -/
def Patient (h : Reporter) (_ : Addr → Word) (x : Option (Access Addr Word)) : Prop :=
  x = none → h.pending = false ∧ h.stage = .idle

instance (h : Reporter) (m : Addr → Word) (x : Option (Access Addr Word)) :
    Decidable (h.Patient m x) :=
  inferInstanceAs (Decidable (_ → _))

/-- Such a host disturbs nothing. -/
theorem Waited.undisturbed (hw : h.Waited) (hx : Act h m x h') : h.Undisturbed m x := by
  cases hx with
  | report f hidle hdeclared => trivial
  | store htodo hin =>
    obtain ⟨hp, hs⟩ := hw (by rw [htodo]; exact List.cons_ne_nil _ _)
    exact ⟨fun _ => .inr ⟨hp, by rw [hs]; decide⟩, fun _ => .inr ⟨hp, hs⟩, fun _ => hp⟩
  | other a v hin hne =>
    simp only [List.mem_cons, List.not_mem_nil, or_false, not_or] at hne
    exact ⟨fun ha => absurd ha hne.2.1, fun ha => absurd ha hne.2.2.1, fun ha => absurd ha hne.1⟩

theorem Waited.act (hw : h.Waited) (hx : Act h m x h') (hp : h.Patient m x) : h'.Waited := by
  cases hx with
  | report f hidle hdeclared => exact fun _ => hp rfl
  | other a v hin hne => exact hw
  | @store a v rest htodo hin =>
    have hw' := hw (by rw [htodo]; exact List.cons_ne_nil _ _)
    cases rest with
    | nil => exact fun hne => absurd rfl hne
    | cons p rest => exact fun _ => hw'

/-- The program goes on reading only a fill it has noticed. -/
theorem Waited.access {y : Access Addr Word} (hw : h.Waited) (hbody : h.Body s start t m)
    (hy : t.access s = some y) : (h.observe s (s.pcOf t.point) y).Waited := by
  intro htodo
  rw [(h.observe_call s _ y).1] at htodo
  obtain ⟨hpending, hstage⟩ := hw htodo
  cases y with
  | store a v =>
    simp only [observe, restarted]
    split_ifs
    all_goals first
      | exact ⟨hpending, hstage⟩
      | exact ⟨hpending, rfl⟩
  | load a =>
    have hlook : h.look.pending = false ∧ h.look.stage = .idle := by
      simp [look, hpending]
    simp only [observe]
    split_ifs with h1 h2 h3 h4
    · exact ⟨rfl, rfl⟩
    · exact hlook
    · subst h3
      obtain ⟨point, r⟩ := t
      cases point with
      | fillSide =>
        have hside := hbody.2.1
        rw [hstage] at hside
        cases hside
      | _ => cases hy
    · exact ⟨hpending, rfl⟩
    · exact ⟨hpending, hstage⟩

theorem Waited.reset (hw : h.Waited) : h.restarted.Waited := fun htodo => ⟨(hw htodo).1, rfl⟩

/-! ### Without restarts -/

/-- `INIT` is run once, before the first report. -/
structure Once (t : Thread) (m : Addr → Word) (h : Reporter) : Prop where
  restart : m cfgRestart = 0
  running : t.point ≠ .clearRestart
  declared : h.declared = !t.point.booting
  idle : h.declared = false → h.todo = [] ∧ h.fills = []
  dropped : h.dropped = []

theorem Starts.once (hs : h.Starts start m) : Once (Thread.initial s r) m h := by
  obtain ⟨-, hrestart, -, htodo, hfills, hdropped, -, -, hdecl, -, -⟩ := hs
  exact ⟨hrestart, by rintro ⟨⟩, hdecl, fun _ => ⟨htodo, hfills⟩, hdropped⟩

/-- The host asks for no restart. -/
theorem Once.act (ho : Once t m h) (hx : Act h m x h') (hno : NoRestart x) :
    Once t (Access.applyOpt m x) h' := by
  have hstore : ∀ {a v}, x = some (.store a v) → Function.update m a v cfgRestart = 0 := by
    rintro a v rfl
    refine (Function.update_of_ne ?_ _ _).trans ho.restart
    rintro rfl
    exact hno v rfl
  cases hx with
  | report f hidle hdeclared =>
    exact ⟨ho.restart, ho.running, ho.declared,
      fun h => absurd (hdeclared.symm.trans h) (by decide),
      ho.dropped⟩
  | other a v hin hne => exact ⟨hstore rfl, ho.running, ho.declared, ho.idle, ho.dropped⟩
  | @store a v rest htodo hin =>
    have hdecl : h.declared = true := by
      by_contra hd
      rw [(ho.idle (by simpa using hd)).1] at htodo
      cases htodo
    cases rest with
    | nil =>
      exact ⟨hstore rfl, ho.running, ho.declared, fun h => absurd (hdecl.symm.trans h) (by decide),
        ho.dropped⟩
    | cons p rest =>
      exact ⟨hstore rfl, ho.running, ho.declared, fun h => absurd (hdecl.symm.trans h) (by decide),
        ho.dropped⟩

/-- The program enters `INIT` on a request only. -/
theorem Once.internal (ho : Once t m h) (hnone : t.access s = none) : Once (t.step s m) m h := by
  have hboot : t.point.booting = false := by
    obtain ⟨point, r⟩ := t
    cases point
    all_goals first
      | rfl
      | cases hnone
  refine ⟨ho.restart, Thread.resume_ne_clearRestart fun hp => ?_, ?_, ho.idle, ho.dropped⟩
  · rw [Thread.reads, hnone]
  · rw [ho.declared, hboot]
    exact congrArg (!·) (Thread.resume_booting hboot ho.running _).symm

/-- In `INIT` nothing has been reported, so that nothing is dropped. -/
theorem Once.access {y : Access Addr Word} (ho : Once t m h) (hy : t.access s = some y) :
    Once (t.step s m) (y.apply m) (h.observe s (s.pcOf t.point) y) := by
  have hrestart := Strategy.apply_cfgRestart hy ho.restart
  have hrunning : (t.step s m).point ≠ .clearRestart := by
    refine Thread.resume_ne_clearRestart fun hp => ?_
    obtain ⟨point, r⟩ := t
    cases hp
    exact ho.restart
  cases hb : t.point.booting with
  | false =>
    have hdecl : h.declared = true := by
      rw [ho.declared, hb]
      rfl
    have hkept : (h.observe s (s.pcOf t.point) y).declared = true ∧
        (h.observe s (s.pcOf t.point) y).dropped = [] := by
      have hdropped := ho.dropped
      have hplace : s.pcOf t.point ≠ s.pcOf .initFill := fun heq => by
        have hp := Strategy.place_of_pcOf_eq (by cases s <;> trivial) heq
        obtain ⟨point, r⟩ := t
        cases point <;> cases hp
        cases hb
      cases y <;> simp only [observe, hplace, if_false] <;> split_ifs <;>
        exact ⟨by first | exact hdecl | rfl, hdropped⟩
    refine ⟨hrestart, hrunning, ?_, fun hd => absurd (hkept.1.symm.trans hd) (by decide), hkept.2⟩
    rw [hkept.1]
    exact congrArg (!·) (Thread.resume_booting hb ho.running _).symm
  | true =>
    have hdecl : h.declared = false := by
      rw [ho.declared, hb]
      rfl
    obtain ⟨htodo, hfills⟩ := ho.idle hdecl
    obtain ⟨point, r⟩ := t
    cases point with
    | initPosition =>
      cases hy
      exact ⟨hrestart, hrunning, hdecl, fun _ => ⟨htodo, hfills⟩, ho.dropped⟩
    | initFill =>
      cases hy
      rw [observe_initFill]
      refine ⟨hrestart, hrunning, hdecl, fun _ => ⟨htodo, rfl⟩, ?_⟩
      change h.fills ++ h.dropped = []
      rw [hfills, ho.dropped]
      rfl
    | clear i =>
      cases hy
      rw [observe_clear]
      refine ⟨hrestart, hrunning, ?_, ho.idle, ho.dropped⟩
      rw [hdecl]
      by_cases hlt : i.val < 6
      · have hstep : Thread.step s ⟨.clear i, r⟩ m = ⟨.clear ⟨i + 1, by omega⟩, r⟩ := dif_pos hlt
        rw [hstep]
        rfl
      · have hstep : Thread.step s ⟨.clear i, r⟩ m = ⟨.setStatus, r⟩ := dif_neg hlt
        rw [hstep]
        rfl
    | setStatus =>
      cases hy
      exact ⟨hrestart, hrunning, hdecl, fun _ => ⟨htodo, hfills⟩, ho.dropped⟩
    | setVersion =>
      cases hy
      exact ⟨hrestart, hrunning, rfl, by rintro ⟨⟩, ho.dropped⟩
    | _ => cases hb

/-- No fill of the list is dropped. -/
theorem Once.observe_fills {y : Access Addr Word} (ho : Once t m h) (hy : t.access s = some y) :
    (h.observe s (s.pcOf t.point) y).fills = h.fills := by
  have hfills : h.declared = false → h.fills = [] := fun hd => (ho.idle hd).2
  cases y with
  | store a v =>
    simp only [observe, restarted]
    split_ifs <;> rfl
  | load a =>
    simp only [observe, adopt, look]
    split_ifs with h1 h2
    · have hboot : t.point.booting = true := by
        have hp := Strategy.place_of_pcOf_eq (by cases s <;> trivial) h2
        obtain ⟨point, r⟩ := t
        cases point <;> cases hp
        rfl
      refine (hfills ?_).symm
      rw [ho.declared, hboot]
      rfl
    all_goals rfl

end Reporter

/-! ### The inventory -/

theorem mailbox_onlyShared (s : Strategy) : (mailbox s).OnlyShared := by
  rintro h m x h' hx a v rfl
  cases hx with
  | store _ hin => exact hin
  | other _ _ hin _ => exact hin.1

theorem reporter_onlyShared (s : Strategy) : (reporter s).OnlyShared :=
  fun h m x h' hx => mailbox_onlyShared s h m x h' hx.1

theorem carefulReporter_onlyShared (s : Strategy) : (carefulReporter s).OnlyShared :=
  fun h m x h' hx => reporter_onlyShared s h m x h' hx.1

/-- **Every fill is applied once**, if no report disturbs the words of an earlier one and there is
no restart: when the host has been quiet for two heartbeats, `POSITION` is the start position and
the sum of all fills. -/
theorem position_eq_ledger (s : Strategy) {start : Word} {c : Cpu} {h : Reporter}
    (hr : cpuMachine.Reachable (carefulReporter s) (boot s (Reporter.Starts start)) (c, h))
    (hbeats : 2 ≤ h.beats) : c.mem position = start + h.ledger := by
  obtain ⟨t, -, -, hI, honce⟩ := board_invariant s (carefulReporter_onlyShared s)
    (I := fun t m h => Reporter.Inv s start t m h ∧ Reporter.Once t m h)
    (fun r m h hs => ⟨hs.inv, hs.once⟩)
    (fun t m h hI hnone => ⟨hI.1.internal hnone, hI.2.internal hnone⟩)
    (fun t m h x hI hx _ => ⟨hI.1.access hx, hI.2.access hx⟩)
    (fun t m h x h' hI hx => ⟨hI.1.act hx.1.1 hx.2, hI.2.act hx.1.1 hx.1.2⟩)
    (fun t m h h' r _ hreset => hreset.elim) hr
  rw [hI.position_eq hbeats, Reporter.ledger, honce.dropped]
  exact congrArg (start + ·) (BitVec.add_zero _).symm

/-! ### Concrete runs -/

/-- What the host can be told to do. -/
inductive ReporterCommand
  | report (f : Fill)
  | store
  | poke (a : Addr) (v : Word)

/-- What it does then, if it can. -/
def ReporterCommand.perform (h : Reporter) :
    ReporterCommand → Option (Option (Access Addr Word) × Reporter)
  | .report f => if h.todo = [] ∧ h.declared = true then some (none, h.report f) else none
  | .store =>
    match h.todo with
    | [] => none
    | (a, v) :: rest => if inputBase ≤ a then some (some (.store a v), h.stored rest) else none
  | .poke a v =>
    if (inputBase ≤ a ∧ a < outputBase) ∧ a ∉ [fillSeq, fillSide, fillQty, cfgPosition] then
      some (some (.store a v), h)
    else none

theorem ReporterCommand.perform_act {k : ReporterCommand} {h h' : Reporter} {m : Addr → Word}
    {x : Option (Access Addr Word)} (hk : k.perform h = some (x, h')) : Reporter.Act h m x h' := by
  cases k with
  | report f =>
    simp only [ReporterCommand.perform] at hk
    split_ifs at hk with hidle
    cases hk
    exact .report f hidle.1 hidle.2
  | store =>
    simp only [ReporterCommand.perform] at hk
    split at hk
    · cases hk
    · next a v rest htodo =>
      split_ifs at hk with hin
      cases hk
      exact .store htodo hin
  | poke a v =>
    simp only [ReporterCommand.perform] at hk
    split_ifs at hk with hcan
    cases hk
    exact .other a v hcan.1 hcan.2

/-- Scripts for the reporter, with restarts. -/
def mailboxDirector (s : Strategy) : Director s (mailbox s).withoutReset ReporterCommand where
  perform k h _ := k.perform h
  ok _ := true
  perform_act hk := ReporterCommand.perform_act hk
  ok_permitted _ _ _ := trivial

/-- Scripts for the reporter. -/
def reporterDirector (s : Strategy) : Director s (reporter s) ReporterCommand where
  perform k h _ := (k.perform h).filter fun y =>
    match y.1 with
    | some (.store a _) => a != cfgRestart
    | _ => true
  ok _ := true
  perform_act {k h m x h'} hk := by
    obtain ⟨hk, hno⟩ := Option.filter_eq_some_iff.mp hk
    refine ⟨ReporterCommand.perform_act hk, ?_⟩
    rintro v rfl
    simp at hno
  ok_permitted _ _ _ := trivial

/-- A host that has reported nothing, with everything at zero. -/
def Reporter.cold : Reporter where
  fpga := ⟨0, 0, 0⟩
  todo := []
  current := ⟨0, 0⟩
  last := ⟨0, 0⟩
  fills := []
  dropped := []
  pending := false
  handled := ⟨0, 0⟩
  stage := .idle
  declared := false
  fresh := true
  beats := 0

theorem Reporter.starts_cold (s : Strategy) :
    Reporter.Starts 0 (s.install fun _ => 0) Reporter.cold := by
  simp [Reporter.Starts, Reporter.cold]

/-- One lot is bought and, once the program has read the quantity, one is sold. -/
theorem position_eq_ledger_round_trip : ∃ (c : Cpu) (h : Reporter),
    h.fills = [⟨fillSold, 1⟩, ⟨fillBought, 3⟩] ∧ h.dropped = [] ∧ c.mem position = 2 := by
  obtain ⟨t, c, h, hr, -, hP⟩ := ((reporterDirector .trading).restrict
    (fun _ _ _ _ => True) Reporter.Undisturbed (fun _ => true)
    fun _ _ _ _ => trivial).exists_reachable (carefulReporter_onlyShared .trading)
    (fun _ _ h => h) (Reporter.Starts 0) (m := fun _ => 0) (Reporter.starts_cold .trading)
    [.cpu 11, .host (.report ⟨fillBought, 3⟩), .host .store, .host .store, .host .store, .cpu 7,
      .host (.report ⟨fillSold, 1⟩), .host .store, .host .store, .cpu 1, .host .store, .cpu 16]
    (P := fun a => a.2.fills = [⟨fillSold, 1⟩, ⟨fillBought, 3⟩] ∧ a.2.dropped = [] ∧
      2 ≤ a.2.beats) (by decide +kernel)
  obtain ⟨hfills, hdropped, hbeats⟩ := of_decide_eq_true hP
  have hpos := position_eq_ledger .trading hr hbeats
  change h.fills = _ at hfills
  change h.dropped = _ at hdropped
  rw [Reporter.ledger, hfills, hdropped] at hpos
  exact ⟨c, h, hfills, hdropped, hpos⟩

/-- **A lost fill.** Two lots are bought with two reports that the program meets in one look into
the mailbox: it applies one of them. -/
theorem not_position_eq_ledger : ¬∀ (c : Cpu) (h : Reporter),
    cpuMachine.Reachable (reporter .trading) (boot .trading (Reporter.Starts 0)) (c, h) →
      h.todo = [] → 2 ≤ h.beats → c.mem position = 0 + h.ledger := by
  intro hall
  obtain ⟨t, c, h, hr, -, hP⟩ := (reporterDirector .trading).exists_reachable
    (reporter_onlyShared .trading) (fun _ _ h => h) (Reporter.Starts 0) (m := fun _ => 0)
    (Reporter.starts_cold .trading)
    [.cpu 11, .host (.report ⟨fillBought, 1⟩), .host .store, .host .store, .host .store,
      .host (.report ⟨fillBought, 1⟩), .host .store, .host .store, .host .store, .cpu 40]
    (P := fun a => a.2.fills = [⟨fillBought, 1⟩, ⟨fillBought, 1⟩] ∧ a.2.dropped = [] ∧
      a.2.todo = [] ∧ 2 ≤ a.2.beats ∧ a.1.2 position = 1)
    (by decide +kernel)
  obtain ⟨hfills, hdropped, htodo, hbeats, hone⟩ := of_decide_eq_true hP
  change h.fills = _ at hfills
  change h.dropped = _ at hdropped
  change c.mem position = 1 at hone
  have hpos := hall c h hr htodo hbeats
  rw [hone, Reporter.ledger, hfills, hdropped] at hpos
  exact absurd hpos (by decide)

end Fmma
