import Fmma.Board.Signals
import Fmma.Board.WriteSets

/-!
# The start-up handshake

`fmma_fpga_load` beside the CPU, access by access: the stores of the configuration and of the
image, the readback, and `wait_for_cpu`, which clears `FW_VERSION`, asks for a restart and waits
until the CPU has declared its version and its heartbeat moves. The CPU is parked when the load
begins, or has been running the image from any earlier time on. The entry word may start it before
`FW_VERSION` is cleared and the restart asked for, so that it runs `INIT` twice, and the restart may
still be pending when the load returns.

A load that returns 0 is synchronised all the same. Trading is off from its first store on, so that
nothing is published between the `INIT` in which the CPU declared its version and the return. And a
heartbeat that has moved was stored after the request, so that the restart, if it is still pending,
comes before the next decision.
-/

namespace Fmma

/-! ### The load -/

/-- The stores of `fmma_fpga_load` up to the readback: the configuration and the image, which fits
the program area (`Strategy.length_image_le`). -/
def loadStores (cfg : FpgaConfig) (image : List Word) : List (Addr × Word) :=
  [(cfgEnable, 0), (cfgRestart, 0)] ++ pushConfig cfg ++ writeProgram image

/-- How far the host is with `fmma_fpga_load`. -/
inductive LoadStage
  /-- It has not been called. -/
  | before
  /-- The stores of the configuration and of the image that are still to be made. -/
  | stores (todo : List (Addr × Word))
  /-- `write_program` is to read word `i` of the image back. -/
  | readback (i : ℕ)
  /-- `wait_for_cpu` is to clear `FW_VERSION`, to ask for a restart, to load `beat0`. -/
  | version
  | restart
  | beat
  /-- Turn `i` of the wait: asleep, and with the version loaded. -/
  | asleep (beat0 : Word) (i : ℕ)
  | awake (beat0 : Word) (i : ℕ) (version : Word)
  /-- The counters of the handle are to be adopted. -/
  | adoptSignal
  | adoptFill
  | adoptTick
  /-- It has returned 0; the host may be in a call of `fmma_fpga_poll_signal`. -/
  | returned (poll : PollStage)
  /-- It has returned -1. -/
  | failed
  deriving DecidableEq

namespace LoadStage

/-- `write_program` compares word `i` with what it has read. -/
def compare (image : List Word) (i : ℕ) (got : Word) : LoadStage :=
  if image[i]? = some got then
    if i + 1 < image.length then .readback (i + 1) else .version
  else .failed

/-- `wait_for_cpu` decides what to do with what it has read in turn `i`. -/
def judge (beat0 : Word) (i : ℕ) (version beat : Word) : LoadStage :=
  if version = protocolVersion ∧ beat ≠ beat0 then .adoptSignal
  else if version ≠ 0 ∧ version ≠ protocolVersion then .failed
  else if beat ≠ beat0 ∧ version = 0 ∧ i > 20 then .failed
  else if i + 1 < 50 then .asleep beat0 (i + 1)
  else .failed

end LoadStage

/-- The host that loads the image, with the record of the run. -/
structure Loader where
  stage : LoadStage
  fpga : Fpga
  /-- The handle when the load returned. -/
  adopted : Fpga
  /-- What the program stored to `SIGNAL_SEQ` last was the 0 of `INIT`. -/
  cleared : Bool
  /-- Since the host cleared `FW_VERSION`, the program has passed its datapath probe and has
  stored its version, and was `cleared` then. -/
  declared : Bool
  /-- What `EMIT` has stored since the load returned: how often it has stored `SIGNAL_SEQ`, and
  what to `SIGNAL` and to `SIGNAL_TICK`. -/
  published : ℕ
  sides : List Word
  ticks : List Word
  /-- How many decisions had been published when the call under way loaded `SIGNAL_SEQ`. -/
  index : ℕ
  /-- The records returned, the last one first, each with the number of its decision. -/
  records : List (ℕ × Signal)

namespace Loader

/-- The load returns 0. -/
def finishLoad (h : Loader) (tick : Word) : Loader :=
  { h with
    stage := .returned .idle
    fpga := { h.fpga with tickSeq := tick &&& ~~~1 }
    adopted := { h.fpga with tickSeq := tick &&& ~~~1 }
    published := 0
    sides := []
    ticks := []
    records := [] }

/-- A call of `fmma_fpga_poll_signal` has loaded `SIGNAL_SEQ`: it returns if the counter is not
new. -/
def poll (h : Loader) (seq : Word) : Loader :=
  if seq = h.fpga.signalSeq then h
  else { h with stage := .returned (.seq seq), index := h.published }

/-- The call has loaded `SIGNAL_TICK`, and returns a record. -/
def finishPoll (h : Loader) (seq side tick : Word) : Loader :=
  { h with
    stage := .returned .idle
    fpga := (h.fpga.received seq side tick).2
    records := (h.index, (h.fpga.received seq side tick).1) :: h.records }

/-- What the host does. Before the load it may store to any word of the driver, and after the load
to any word of the input block but `CFG_RESTART`. -/
inductive Act (s : Strategy) (h : Loader) (m : Addr → Word) :
    Option (Access Addr Word) → Loader → Prop
  | earlier (a : Addr) (v : Word) (hstage : h.stage = .before)
    (ha : (inputBase ≤ a ∧ a < outputBase) ∨ a = fwVersion) : Act s h m (some (.store a v)) h
  | call (cfg : FpgaConfig) (hstage : h.stage = .before) :
    Act s h m none { h with stage := .stores (loadStores cfg s.image) }
  | store {a v rest} (hstage : h.stage = .stores ((a, v) :: rest)) :
    Act s h m (some (.store a v)) { h with stage := .stores rest }
  | stored (hstage : h.stage = .stores []) : Act s h m none { h with stage := .readback 0 }
  | readback {i} (hstage : h.stage = .readback i) :
    Act s h m (some (.load (BitVec.ofNat 10 (8 + i))))
      { h with stage := .compare s.image i (m (BitVec.ofNat 10 (8 + i))) }
  | version (hstage : h.stage = .version) :
    Act s h m (some (.store fwVersion 0)) { h with stage := .restart, declared := false }
  | restart (hstage : h.stage = .restart) :
    Act s h m (some (.store cfgRestart 1)) { h with stage := .beat }
  | beat (hstage : h.stage = .beat) :
    Act s h m (some (.load heartbeat)) { h with stage := .asleep (m heartbeat) 0 }
  | asleep {beat0 i} (hstage : h.stage = .asleep beat0 i) :
    Act s h m (some (.load fwVersion)) { h with stage := .awake beat0 i (m fwVersion) }
  | awake {beat0 i v} (hstage : h.stage = .awake beat0 i v) :
    Act s h m (some (.load heartbeat)) { h with stage := .judge beat0 i v (m heartbeat) }
  | adoptSignal (hstage : h.stage = .adoptSignal) :
    Act s h m (some (.load signalSeq))
      { h with stage := .adoptFill, fpga := { h.fpga with signalSeq := m signalSeq } }
  | adoptFill (hstage : h.stage = .adoptFill) :
    Act s h m (some (.load fillSeq))
      { h with stage := .adoptTick, fpga := { h.fpga with fillSeq := m fillSeq } }
  | adoptTick (hstage : h.stage = .adoptTick) :
    Act s h m (some (.load tickSeq)) (h.finishLoad (m tickSeq))
  | seq (hstage : h.stage = .returned .idle) :
    Act s h m (some (.load signalSeq)) (h.poll (m signalSeq))
  | side {v} (hstage : h.stage = .returned (.seq v)) :
    Act s h m (some (.load signal)) { h with stage := .returned (.side v (m signal)) }
  | tick {v side} (hstage : h.stage = .returned (.side v side)) :
    Act s h m (some (.load signalTick)) (h.finishPoll v side (m signalTick))
  | other {p} (a : Addr) (v : Word) (hstage : h.stage = .returned p)
    (hin : inputBase ≤ a ∧ a < outputBase) (hne : a ≠ cfgRestart) :
    Act s h m (some (.store a v)) h

/-- What an access of the CPU says, by the instruction that makes it. -/
def observe (s : Strategy) (h : Loader) (i : Addr) : Access Addr Word → Loader
  | .load _ => h
  | .store a v =>
    if a = fwVersion then
      if i = s.pcOf .setVersion ∧ v = protocolVersion ∧ h.cleared = true then
        { h with declared := true }
      else h
    else if a = signal then
      if i = s.pcOf (.signal .buy) then { h with sides := v :: h.sides } else h
    else if a = signalTick then
      if i = s.pcOf .signalTick then { h with ticks := v :: h.ticks } else h
    else if a = signalSeq then
      if i = s.pcOf (.signalSeqStore 0) then
        { h with published := h.published + 1, cleared := false }
      else { h with cleared := v = 0 }
    else h

/-- A record stems from a decision published since the load returned: its counter is the number of
one, and its side and tick were stored for one. -/
structure Stems (h : Loader) (p : ℕ × Signal) : Prop where
  pos : 0 < p.1
  published : p.1 ≤ h.published
  seq : p.2.seq = BitVec.ofNat 32 p.1
  side : p.2.side ∈ h.sides
  tick : p.2.tick ∈ h.ticks

end Loader

/-- The host as a loader. -/
def loader (s : Strategy) : Host Loader where
  act := Loader.Act s
  observe h i x _ := h.observe s i x

/-! ### The invariant -/

/-- The points of `INIT` after it has cleared `SIGNAL_SEQ`. -/
def Point.cleared : Point → Bool
  | .clear i => 2 < i
  | .setStatus => true
  | .setVersion => true
  | _ => false

/-- The points after the program has found trading enabled. -/
def Point.enabled : Point → Bool
  | .maxPos _ => true
  | .signal _ => true
  | .signalTick => true
  | .status => true
  | .signalSeq => true
  | .signalSeqStore _ => true
  | _ => false

/-- While the CPU is parked, the image is not complete, and its entry word is still to come. -/
def LoadStage.Parks (s : Strategy) (m : Addr → Word) : LoadStage → Prop
  | .before => True
  | .stores todo => s.Covered m todo ∧ s.EntryLast todo
  | _ => False

/-- Trading is off from the first store of the load on until it returns 0. -/
def LoadStage.Disables (m : Addr → Word) : LoadStage → Prop
  | .before => True
  | .stores todo => (∀ w ∈ todo, w.1 = cfgEnable → w.2 = 0) ∧
      ((∀ w ∈ todo, w.1 ≠ cfgEnable) → m cfgEnable = 0)
  | .returned _ => True
  | _ => m cfgEnable = 0

namespace Loader

/-- `INIT` has cleared `SIGNAL_SEQ`. -/
def Clears (t : Thread) (m : Addr → Word) (h : Loader) : Prop :=
  t.point.cleared = true → m signalSeq = 0 ∧ h.cleared = true

/-- The host is before the load. The CPU is parked, or runs the image, at any point and with any
registers; if that is a point of `INIT` after it has cleared `SIGNAL_SEQ`, the word is clear. All
other shared words are arbitrary. -/
def Starts (s : Strategy) (a : Cpu × Loader) : Prop :=
  (a.1.Parked ∨ ∃ t, s.Sim t a.1.toCore ∧ s.Loaded a.1.mem ∧ a.2.Clears t a.1.mem) ∧
    a.2.stage = .before

/-- The program has declared its version, and has no decision to publish. -/
structure Settled (t : Thread) (m : Addr → Word) (h : Loader) : Prop where
  declared : h.declared = true
  seq : m signalSeq = 0
  point : t.point.enabled = false

/-- No restart is pending, or it is taken at once. -/
def Fresh (t : Thread) (m : Addr → Word) : Prop :=
  m cfgRestart = 0 ∨ t.point = .restart ∨ t.point = .clearRestart

/-- The program is on its way through a restart. -/
def Restarting (t : Thread) (m : Addr → Word) : Prop :=
  t.point.booting = true ∨ t.point = .clearRestart ∨ (t.point = .restart ∧ m cfgRestart ≠ 0)

/-- **The writer's invariant** once the load has returned: `SIGNAL_SEQ` counts the decisions, and
none comes before a pending restart. -/
structure Counts (t : Thread) (m : Addr → Word) (h : Loader) : Prop where
  restarting : Restarting t m → h.published = 0 ∧ h.sides = [] ∧ h.ticks = []
  seq : m signalSeq = BitVec.ofNat 32 h.published
  next : ∀ v, t.point = .signalSeqStore v → v = BitVec.ofNat 32 (h.published + 1)
  side : h.sides ≠ [] → m signal ∈ h.sides
  tick : h.ticks ≠ [] → m signalTick ∈ h.ticks
  begun : 0 < h.published → h.sides ≠ [] ∧ h.ticks ≠ []
  begunSide : t.point.begun.1 = 1 → h.sides ≠ []
  begunTick : t.point.begun.2 = 1 → h.ticks ≠ []

/-- The call under way has loaded the counter of a decision. -/
structure Called (h : Loader) (v : Word) : Prop where
  pos : 0 < h.index
  published : h.index ≤ h.published
  counter : v = BitVec.ofNat 32 h.index

/-- How far a call of `fmma_fpga_poll_signal` is. -/
def Polls (h : Loader) : PollStage → Prop
  | .idle => True
  | .seq v => h.Called v
  | .side v side => h.Called v ∧ side ∈ h.sides

/-- **The reader's invariant** once the load has returned. -/
structure Reads (h : Loader) (p : PollStage) : Prop where
  adopted : h.adopted.signalSeq = 0
  fresh : h.published = 0 → h.fpga.signalSeq = 0
  polls : h.Polls p
  records : ∀ r ∈ h.records, h.Stems r

/-- **The handshake**, stage by stage. -/
def Progress (t : Thread) (m : Addr → Word) (h : Loader) : Prop :=
  match h.stage with
  | .restart => m fwVersion = 0 ∨ h.Settled t m
  | .beat => m fwVersion = 0 ∨ h.Settled t m
  | .asleep beat0 _ => (m fwVersion = 0 ∨ h.Settled t m) ∧ (m heartbeat = beat0 ∨ Fresh t m)
  | .awake beat0 _ version => (m fwVersion = 0 ∨ h.Settled t m) ∧
      (m heartbeat = beat0 ∨ Fresh t m) ∧ (version = 0 ∨ h.Settled t m)
  | .adoptSignal => h.Settled t m ∧ Fresh t m
  | .adoptFill => h.Settled t m ∧ Fresh t m ∧ h.fpga.signalSeq = 0
  | .adoptTick => h.Settled t m ∧ Fresh t m ∧ h.fpga.signalSeq = 0
  | .returned p => h.declared = true ∧ Fresh t m ∧ h.Counts t m ∧ h.Reads p
  | _ => True

/-- **The invariant** of the load. -/
structure Inv (s : Strategy) (c : Cpu) (h : Loader) : Prop where
  cpu : (c.Parked ∧ h.stage.Parks s c.mem) ∨
    ∃ t, s.Sim t c.toCore ∧ s.Loaded c.mem ∧ h.Clears t c.mem ∧ h.Progress t c.mem
  disables : h.stage.Disables c.mem
  todo : ∀ l, h.stage = .stores l → s.Faithful l ∧ ∀ w ∈ l, w.1 < outputBase

variable {s : Strategy} {t : Thread} {m : Addr → Word} {h : Loader}

/-! ### The program's steps -/

section Steps

variable {y : Access Addr Word} {a : Addr} {v : Word}

/-- `SIGNAL_SEQ` is cleared in `INIT` and counted in `EMIT`. -/
theorem store_signalSeq (hy : t.access s = some (.store signalSeq v)) :
    v = 0 ∨ t.point = .signalSeqStore v := by
  obtain ⟨point, r⟩ := t
  cases point with
  | clear i =>
    simp only [Thread.access, Option.some.injEq, Access.store.injEq] at hy
    rw [← hy.2, hy.1]
    exact .inl rfl
  | signalSeqStore w =>
    cases hy
    exact .inr rfl
  | _ => cases hy

/-- The heartbeat and the version are not among the words that `INIT` clears. -/
theorem clearOrder_ne (s : Strategy) (i : Fin 7) :
    s.clearOrder i ≠ heartbeat ∧ s.clearOrder i ≠ fwVersion := by
  fin_cases i <;> cases s <;> decide

/-- Only `INIT` stores the version. -/
theorem store_fwVersion (hy : t.access s = some (.store fwVersion v)) : t.point = .setVersion := by
  obtain ⟨point, r⟩ := t
  cases point with
  | clear i =>
    simp only [Thread.access, Option.some.injEq, Access.store.injEq] at hy
    exact absurd hy.1 (clearOrder_ne s i).2
  | setVersion => rfl
  | _ => cases hy

/-- The heartbeat is stored at the head of a pass. -/
theorem store_heartbeat (hy : t.access s = some (.store heartbeat v)) : t.point = .beat := by
  obtain ⟨point, r⟩ := t
  cases point with
  | clear i =>
    simp only [Thread.access, Option.some.injEq, Access.store.injEq] at hy
    exact absurd hy.1 (clearOrder_ne s i).1
  | beat => rfl
  | _ => cases hy

/-- What `INIT` clears. -/
theorem observe_clear (s : Strategy) (h : Loader) (i : Fin 7) (v : Word) :
    h.observe s (s.pcOf (.clear i)) (.store (s.clearOrder i) v) =
      if i = 2 then { h with cleared := v = 0 } else h := by
  fin_cases i <;> cases s <;> rfl

/-- Outside of `INIT` and `EMIT` there is nothing to remember. -/
theorem observe_steady (hb : t.point.booting = false) (he : t.point.emitting = false)
    (hy : t.access s = some y) (i : Addr) : h.observe s i y = h := by
  cases y with
  | load a => rfl
  | store a v =>
    have ha := Poller.store_steady hb he hy
    have hv : a ≠ fwVersion := by
      rintro rfl
      rw [store_fwVersion hy] at hb
      cases hb
    simp only [List.mem_cons, List.not_mem_nil, or_false, not_or] at ha
    simp only [observe, hv, ha, if_false]

/-- What an access leaves of the host's half of the record. -/
theorem observe_host (s : Strategy) (h : Loader) (i : Addr) (y : Access Addr Word) :
    (h.observe s i y).stage = h.stage ∧ (h.observe s i y).fpga = h.fpga ∧
      (h.observe s i y).adopted = h.adopted ∧ (h.observe s i y).index = h.index ∧
      (h.observe s i y).records = h.records := by
  cases y with
  | load a => exact ⟨rfl, rfl, rfl, rfl, rfl⟩
  | store a v =>
    simp only [observe]
    split_ifs <;> exact ⟨rfl, rfl, rfl, rfl, rfl⟩

/-- The record of the decisions grows. -/
theorem observe_grows (s : Strategy) (h : Loader) (i : Addr) (y : Access Addr Word) :
    (h.declared = true → (h.observe s i y).declared = true) ∧
      h.published ≤ (h.observe s i y).published ∧ (∀ v ∈ h.sides, v ∈ (h.observe s i y).sides) ∧
      ∀ v ∈ h.ticks, v ∈ (h.observe s i y).ticks := by
  cases y with
  | load a => exact ⟨id, le_rfl, fun _ => id, fun _ => id⟩
  | store a v =>
    simp only [observe]
    split_ifs
    all_goals first
      | exact ⟨id, le_rfl, fun _ => id, fun _ => id⟩
      | exact ⟨fun _ => rfl, le_rfl, fun _ => id, fun _ => id⟩
      | exact ⟨id, Nat.le_succ _, fun _ => id, fun _ => id⟩
      | exact ⟨id, le_rfl, fun _ => List.mem_cons_of_mem _, fun _ => id⟩
      | exact ⟨id, le_rfl, fun _ => id, fun _ => List.mem_cons_of_mem _⟩

/-- A program that finds trading disabled publishes nothing. -/
theorem enabled_step (h0 : m cfgEnable = 0) (hp : t.point.enabled = false) :
    (t.step s m).point.enabled = false := by
  obtain ⟨point, r⟩ := t
  cases point with
  | enable side =>
    rw [Thread.step_load rfl]
    simp only [Thread.resume, h0, if_true]
    rfl
  | commit seq =>
    cases s
    all_goals
      simp only [Thread.step, Thread.resume, Strategy.consider, Strategy.setQuotes]
      split_ifs <;> rfl
  | thresh sum =>
    rw [Thread.step_load rfl]
    simp only [Thread.resume, Strategy.bandTest]
    split_ifs <;> rfl
  | clear i =>
    simp only [Thread.step, Thread.resume]
    split_ifs <;> rfl
  | restart =>
    simp only [Thread.step, Thread.resume]
    split_ifs <;> rfl
  | fillSeq =>
    simp only [Thread.step, Thread.resume]
    split_ifs <;> rfl
  | tickSeq =>
    simp only [Thread.step, Thread.resume]
    split_ifs <;> rfl
  | tickSeq2 seq =>
    simp only [Thread.step, Thread.resume]
    split_ifs <;> rfl
  | _ => first
    | rfl
    | cases hp

/-- **Settled** the program stays, as long as trading is off. -/
theorem Settled.internal (hs : h.Settled t m) (h0 : m cfgEnable = 0) :
    h.Settled (t.step s m) m :=
  ⟨hs.declared, hs.seq, enabled_step h0 hs.point⟩

theorem Settled.access (hs : h.Settled t m) (h0 : m cfgEnable = 0) (hy : t.access s = some y)
    (i : Addr) : (h.observe s i y).Settled (t.step s m) (y.apply m) := by
  refine ⟨(observe_grows s h i y).1 hs.declared, ?_, enabled_step h0 hs.point⟩
  cases y with
  | load a => exact hs.seq
  | store a v =>
    by_cases ha : a = signalSeq
    · subst ha
      rcases store_signalSeq hy with rfl | hpoint
      · exact Function.update_self signalSeq 0 m
      · have henabled := hs.point
        rw [hpoint] at henabled
        cases henabled
    · exact (Function.update_of_ne (Ne.symm ha) v m).trans hs.seq

/-- After `INIT`, `SIGNAL_SEQ` is cleared no longer. -/
theorem booting_of_cleared_step (hc : (t.step s m).point.cleared = true) :
    t.point.booting = true := by
  by_contra hb
  rw [Bool.not_eq_true] at hb
  by_cases hr : t.point = .clearRestart
  · obtain ⟨point, r⟩ := t
    cases hr
    cases hc
  · have hnext := Thread.resume_booting (s := s) hb hr (t.reads s m)
    have hboot : ∀ p : Point, p.cleared = true → p.booting = true := fun p hp => by
      cases p
      all_goals first
        | rfl
        | cases hp
    exact absurd (hboot _ hc) (by rw [Thread.step, hnext]; decide)

theorem Clears.internal (hnone : t.access s = none) : h.Clears (t.step s m) m := by
  intro hc
  have hb := booting_of_cleared_step hc
  obtain ⟨point, r⟩ := t
  cases point
  all_goals first
    | (cases hb; done)
    | cases hnone

/-- **`INIT`** clears `SIGNAL_SEQ` before it declares the version. -/
theorem Clears.access (hc : h.Clears t m) (hy : t.access s = some y) :
    (h.observe s (s.pcOf t.point) y).Clears (t.step s m) (y.apply m) := by
  intro hnext
  have hb := booting_of_cleared_step hnext
  obtain ⟨point, r⟩ := t
  cases point with
  | clear i =>
    cases hy
    rw [observe_clear]
    by_cases hi : i = 2
    · subst hi
      rw [if_pos rfl]
      exact ⟨Function.update_self signalSeq 0 m, rfl⟩
    · rw [if_neg hi]
      have hne : signalSeq ≠ s.clearOrder i := by
        revert hi
        fin_cases i <;> cases s <;> decide
      have hlt : 2 < i := by
        by_contra hle
        have hval : i.val < 2 := by
          have h2 : i.val ≠ 2 := fun h => hi (Fin.ext h)
          have := Fin.not_lt.mp hle
          have : i.val ≤ 2 := this
          omega
        have hstep : Thread.step s ⟨.clear i, r⟩ m = ⟨.clear ⟨i + 1, by omega⟩, r⟩ :=
          dif_pos (by omega)
        rw [hstep] at hnext
        have hgt : 2 < i.val + 1 := of_decide_eq_true hnext
        omega
      obtain ⟨hseq, hcleared⟩ := hc (decide_eq_true hlt)
      exact ⟨(Function.update_of_ne hne _ m).trans hseq, hcleared⟩
  | setStatus =>
    cases hy
    obtain ⟨hseq, hcleared⟩ := hc rfl
    exact ⟨(Function.update_of_ne (by decide) _ m).trans hseq, hcleared⟩
  | initPosition => cases hnext
  | initFill => cases hnext
  | setVersion => cases hnext
  | _ => cases hb

/-- **The version** is declared by a program that is settled. -/
theorem settled_access (hs : m fwVersion = 0 ∨ h.Settled t m) (hc : h.Clears t m)
    (h0 : m cfgEnable = 0) (hy : t.access s = some y) :
    y.apply m fwVersion = 0 ∨
      (h.observe s (s.pcOf t.point) y).Settled (t.step s m) (y.apply m) := by
  rcases hs with hv | hs
  · cases y with
    | load a => exact .inl hv
    | store a v =>
      by_cases ha : a = fwVersion
      · subst ha
        have hpoint := store_fwVersion hy
        obtain ⟨point, r⟩ := t
        cases hpoint
        cases hy
        obtain ⟨hseq, hcleared⟩ := hc rfl
        have hobs : h.observe s (s.pcOf .setVersion) (.store fwVersion protocolVersion) =
            { h with declared := true } := if_pos ⟨rfl, rfl, hcleared⟩
        rw [hobs]
        exact .inr ⟨rfl, (Function.update_of_ne (by decide) _ m).trans hseq, rfl⟩
      · left
        exact (Function.update_of_ne (Ne.symm ha) v m).trans hv
  · exact .inr (hs.access h0 hy _)

/-- A pending restart is taken. -/
theorem Fresh.internal (hf : Fresh t m) (hnone : t.access s = none) : Fresh (t.step s m) m := by
  obtain ⟨point, r⟩ := t
  rcases hf with h0 | hpoint | hpoint
  · exact .inl h0
  · cases hpoint
    cases hnone
  · cases hpoint
    cases hnone

theorem Fresh.access (hf : Fresh t m) (hy : t.access s = some y) :
    Fresh (t.step s m) (y.apply m) := by
  by_cases h0 : m cfgRestart = 0
  · exact .inl (Strategy.apply_cfgRestart hy h0)
  · obtain ⟨point, r⟩ := t
    rcases hf with heq | hpoint | hpoint
    · exact absurd heq h0
    · cases hpoint
      have hstep : Thread.step s ⟨.restart, r⟩ m = ⟨.clearRestart, r⟩ := if_neg h0
      rw [hstep]
      exact .inr (.inr rfl)
    · cases hpoint
      cases hy
      exact .inl (Function.update_self cfgRestart 0 m)

/-- **A heartbeat** that moves is stored right before the program looks for a restart. -/
theorem fresh_access {b : Word} (hb : m heartbeat = b ∨ Fresh t m) (hy : t.access s = some y) :
    y.apply m heartbeat = b ∨ Fresh (t.step s m) (y.apply m) := by
  rcases hb with hb | hf
  · cases y with
    | load a => exact .inl hb
    | store a v =>
      by_cases ha : a = heartbeat
      · subst ha
        have hpoint := store_heartbeat hy
        obtain ⟨point, r⟩ := t
        cases hpoint
        exact .inr (.inr (.inl rfl))
      · left
        exact (Function.update_of_ne (Ne.symm ha) v m).trans hb
  · exact .inr (hf.access hy)

/-- No restart comes by itself. -/
theorem restarting_of_step (hf : Fresh t m) (hb : t.point.booting = false)
    (hr : t.point ≠ .clearRestart)
    (hs : Restarting (t.step s m) (Access.applyOpt m (t.access s))) : Restarting t m := by
  have hpending : m cfgRestart ≠ 0 → Restarting t m := fun h0 => by
    rcases hf with heq | hpoint | hpoint
    · exact absurd heq h0
    · exact .inr (.inr ⟨hpoint, h0⟩)
    · exact absurd hpoint hr
  by_cases h0 : m cfgRestart = 0
  · rcases hs with hboot | hclear | ⟨-, hset⟩
    · rw [Thread.step, Thread.resume_booting hb hr] at hboot
      cases hboot
    · refine absurd hclear (Thread.resume_ne_clearRestart fun hpoint => ?_)
      obtain ⟨point, r⟩ := t
      cases hpoint
      exact h0
    · refine absurd ?_ hset
      cases hy : t.access s with
      | none => exact h0
      | some y => exact Strategy.apply_cfgRestart hy h0
  · exact hpending h0

variable {t' : Thread} {m' : Addr → Word}

/-- Between two decisions. -/
theorem Counts.move (hC : h.Counts t m) (hm : ∀ a ∈ [signal, signalTick, signalSeq], m' a = m a)
    (hr : Restarting t' m' → Restarting t m) (hbegun : t'.point.begun = (0, 0)) :
    h.Counts t' m' := by
  refine ⟨fun h => hC.restarting (hr h), (hm _ (by decide)).trans hC.seq, fun v hv => ?_,
    fun hne => ?_, fun hne => ?_, hC.begun, fun h1 => ?_, fun h1 => ?_⟩
  · rw [hv] at hbegun
    cases hbegun
  · rw [hm _ (by decide)]
    exact hC.side hne
  · rw [hm _ (by decide)]
    exact hC.tick hne
  · rw [hbegun] at h1
    cases h1
  · rw [hbegun] at h1
    cases h1

/-- Before the first decision. -/
theorem Counts.of_none (hpub : h.published = 0) (hsides : h.sides = []) (hticks : h.ticks = [])
    (hseq : m signalSeq = 0) (hbegun : t.point.begun = (0, 0)) : h.Counts t m := by
  refine ⟨fun _ => ⟨hpub, hsides, hticks⟩, ?_, fun v hv => ?_, fun hne => absurd hsides hne,
    fun hne => absurd hticks hne, fun hpos => ?_, fun h1 => ?_, fun h1 => ?_⟩
  · rw [hseq, hpub]
    rfl
  · rw [hv] at hbegun
    cases hbegun
  · rw [hpub] at hpos
    exact absurd hpos (Nat.lt_irrefl 0)
  · rw [hbegun] at h1
    cases h1
  · rw [hbegun] at h1
    cases h1

/-- The steps without an access. -/
theorem Counts.internal (hC : h.Counts t m) (hf : Fresh t m) (hnone : t.access s = none) :
    h.Counts (t.step s m) m := by
  have hsteady : t.point.booting = false ∧ t.point.emitting = false ∧ t.point ≠ .clearRestart := by
    obtain ⟨point, r⟩ := t
    cases point
    all_goals first
      | exact ⟨rfl, rfl, Point.noConfusion⟩
      | cases hnone
  obtain ⟨hb, he, hr⟩ := hsteady
  obtain ⟨-, hbegun⟩ := Poller.resume_steady (s := s) hb he hr (t.reads s m)
  refine hC.move (fun _ _ => rfl) (fun h => restarting_of_step (s := s) hf hb hr ?_) hbegun
  rw [hnone]
  exact h

/-- **A restart** counts nothing. -/
theorem Counts.access_booting (hC : h.Counts t m) (hb : t.point.booting = true)
    (hy : t.access s = some y) :
    (h.observe s (s.pcOf t.point) y).Counts (t.step s m) (y.apply m) := by
  obtain ⟨hpub, hsides, hticks⟩ := hC.restarting (.inl hb)
  have hseq : y.apply m signalSeq = 0 := by
    have h0 : m signalSeq = 0 := by
      rw [hC.seq, hpub]
      rfl
    cases y with
    | load a => exact h0
    | store a v =>
      by_cases ha : a = signalSeq
      · subst ha
        rcases store_signalSeq hy with rfl | hpoint
        · exact Function.update_self signalSeq 0 m
        · rw [hpoint] at hb
          cases hb
      · exact (Function.update_of_ne (Ne.symm ha) v m).trans h0
  obtain ⟨point, r⟩ := t
  cases point with
  | clear i =>
    cases hy
    have hbegun : (Thread.step s ⟨.clear i, r⟩ m).point.begun = (0, 0) := by
      simp only [Thread.step, Thread.resume]
      split_ifs <;> rfl
    rw [observe_clear]
    by_cases hi : i = 2
    · rw [if_pos hi]
      exact .of_none hpub hsides hticks hseq hbegun
    · rw [if_neg hi]
      exact .of_none hpub hsides hticks hseq hbegun
  | setVersion =>
    cases hy
    have hobs : h.observe s (s.pcOf .setVersion) (.store fwVersion protocolVersion) =
        if h.cleared = true then { h with declared := true } else h := by
      simp only [observe, if_true, true_and]
    rw [hobs]
    split_ifs <;> exact .of_none hpub hsides hticks hseq rfl
  | initPosition =>
    cases hy
    exact .of_none hpub hsides hticks hseq rfl
  | initFill =>
    cases hy
    exact .of_none hpub hsides hticks hseq rfl
  | setStatus =>
    cases hy
    exact .of_none hpub hsides hticks hseq rfl
  | _ => cases hb

/-- Outside of the restart path. -/
theorem not_restarting (hb : t.point.booting = false) (hc : t.point ≠ .clearRestart)
    (hr : t.point ≠ .restart) : ¬Restarting t m := by
  rintro (hboot | hclear | ⟨hrestart, -⟩)
  · rw [hb] at hboot
    cases hboot
  · exact hc hclear
  · exact hr hrestart

/-- **`EMIT`**, store by store. -/
theorem Counts.access_emitting (hC : h.Counts t m) (he : t.point.emitting = true)
    (hy : t.access s = some y) :
    (h.observe s (s.pcOf t.point) y).Counts (t.step s m) (y.apply m) := by
  obtain ⟨point, r⟩ := t
  cases point with
  | signal d =>
    cases hy
    have hobs : h.observe s (s.pcOf (.signal d)) (.store signal d.signal) =
        { h with sides := d.signal :: h.sides } := if_pos rfl
    rw [hobs]
    refine ⟨fun h => absurd h (not_restarting rfl (by rintro ⟨⟩) (by rintro ⟨⟩)), ?_,
      by rintro v ⟨⟩, fun _ => ?_, fun hne => ?_, fun hpos => ⟨List.cons_ne_nil _ _,
      (hC.begun hpos).2⟩, fun _ => List.cons_ne_nil _ _, by rintro ⟨⟩⟩
    · exact (Function.update_of_ne (by decide) _ m).trans hC.seq
    · rw [Access.apply_store, Function.update_self]
      exact List.mem_cons_self
    · rw [Access.apply_store, Function.update_of_ne (by decide)]
      exact hC.tick hne
  | signalTick =>
    cases hy
    have hobs : h.observe s (s.pcOf .signalTick) (.store signalTick r.tick) =
        { h with ticks := r.tick :: h.ticks } := if_pos rfl
    change (h.observe s (s.pcOf .signalTick) (.store signalTick r.tick)).Counts _ _
    rw [hobs]
    have hside := hC.begunSide rfl
    refine ⟨fun h => absurd h (not_restarting rfl (by rintro ⟨⟩) (by rintro ⟨⟩)), ?_,
      by rintro v ⟨⟩, fun hne => ?_, fun _ => ?_, fun _ => ⟨hside, List.cons_ne_nil _ _⟩,
      fun _ => hside, fun _ => List.cons_ne_nil _ _⟩
    · exact (Function.update_of_ne (by decide) _ m).trans hC.seq
    · rw [Access.apply_store, Function.update_of_ne (by decide)]
      exact hC.side hne
    · rw [Access.apply_store, Function.update_self]
      exact List.mem_cons_self
  | status =>
    cases hy
    refine ⟨fun h => absurd h (not_restarting rfl (by rintro ⟨⟩) (by rintro ⟨⟩)), ?_,
      by rintro v ⟨⟩, fun hne => ?_, fun hne => ?_, hC.begun, fun _ => hC.begunSide rfl,
      fun _ => hC.begunTick rfl⟩
    · exact (Function.update_of_ne (by decide) _ m).trans hC.seq
    · rw [Access.apply_store, Function.update_of_ne (by decide)]
      exact hC.side hne
    · rw [Access.apply_store, Function.update_of_ne (by decide)]
      exact hC.tick hne
  | signalSeq =>
    cases hy
    refine ⟨fun h => absurd h (not_restarting rfl (by rintro ⟨⟩) (by rintro ⟨⟩)), hC.seq,
      fun v hv => ?_, hC.side, hC.tick, hC.begun, fun _ => hC.begunSide rfl,
      fun _ => hC.begunTick rfl⟩
    have hv : m Fmma.signalSeq + 1 = v := by
      injection hv
    rw [← hv, hC.seq, BitVec.ofNat_add]
    rfl
  | signalSeqStore v =>
    cases hy
    have hobs : h.observe s (s.pcOf (.signalSeqStore v)) (.store Fmma.signalSeq v) =
        { h with published := h.published + 1, cleared := false } := if_pos rfl
    rw [hobs]
    have hsides := hC.begunSide rfl
    have hticks := hC.begunTick rfl
    refine ⟨fun h => absurd h (not_restarting rfl (by rintro ⟨⟩) (by rintro ⟨⟩)), ?_,
      by rintro v ⟨⟩, fun hne => ?_, fun hne => ?_, fun _ => ⟨hsides, hticks⟩, by rintro ⟨⟩,
      by rintro ⟨⟩⟩
    · exact (Function.update_self Fmma.signalSeq v m).trans (hC.next v rfl)
    · rw [Access.apply_store, Function.update_of_ne (by decide)]
      exact hC.side hne
    · rw [Access.apply_store, Function.update_of_ne (by decide)]
      exact hC.tick hne
  | _ => cases he

/-- **The accesses of the program** keep the counters in step. -/
theorem Counts.access (hC : h.Counts t m) (hf : Fresh t m) (hy : t.access s = some y) :
    (h.observe s (s.pcOf t.point) y).Counts (t.step s m) (y.apply m) := by
  cases hb : t.point.booting with
  | true => exact hC.access_booting hb hy
  | false =>
    cases he : t.point.emitting with
    | true => exact hC.access_emitting he hy
    | false =>
      have hm : ∀ a ∈ [signal, signalTick, signalSeq], y.apply m a = m a := by
        intro a ha
        refine Access.apply_of_ne ?_
        rintro b v rfl rfl
        exact Poller.store_steady hb he hy ha
      rw [observe_steady hb he hy]
      by_cases hr : t.point = .clearRestart
      · refine hC.move hm (fun _ => .inr (.inl hr)) ?_
        obtain ⟨point, r⟩ := t
        cases hr
        rfl
      · obtain ⟨-, hbegun⟩ := Poller.resume_steady (s := s) hb he hr (t.reads s m)
        refine hC.move hm (fun h => restarting_of_step (s := s) hf hb hr ?_) hbegun
        rw [hy]
        exact h

/-- A record stems from a decision for good. -/
theorem Stems.grow {h' : Loader} {r : ℕ × Signal} (hr : h.Stems r)
    (hpub : h.published ≤ h'.published) (hsides : ∀ v ∈ h.sides, v ∈ h'.sides)
    (hticks : ∀ v ∈ h.ticks, v ∈ h'.ticks) : h'.Stems r :=
  ⟨hr.pos, hr.published.trans hpub, hr.seq, hsides _ hr.side, hticks _ hr.tick⟩

/-- More decisions do not concern the reader. -/
theorem Reads.access {p : PollStage} (hR : h.Reads p) (s : Strategy) (i : Addr)
    (y : Access Addr Word) : (h.observe s i y).Reads p := by
  obtain ⟨-, hfpga, hadopted, hindex, hrecords⟩ := observe_host s h i y
  obtain ⟨-, hpub, hsides, hticks⟩ := observe_grows s h i y
  have hcalled : ∀ {v}, h.Called v → (h.observe s i y).Called v := fun hc =>
    ⟨hindex.symm ▸ hc.pos, hindex.symm ▸ hc.published.trans hpub, hindex.symm ▸ hc.counter⟩
  refine ⟨hadopted.symm ▸ hR.adopted, fun h0 => ?_, ?_, fun r hr => ?_⟩
  · rw [hfpga]
    exact hR.fresh (Nat.le_zero.mp (h0 ▸ hpub))
  · have hpolls := hR.polls
    cases p with
    | idle => trivial
    | seq v => exact hcalled hpolls
    | side v d => exact ⟨hcalled hpolls.1, hsides d hpolls.2⟩
  · rw [hrecords] at hr
    exact (hR.records r hr).grow hpub hsides hticks

/-- The program's steps keep the handshake going. -/
theorem Progress.internal (hp : h.Progress t m) (hd : h.stage.Disables m)
    (hnone : t.access s = none) : h.Progress (t.step s m) m := by
  unfold Progress at hp ⊢
  cases hstage : h.stage
  all_goals
    rw [hstage] at hd
    simp only [hstage] at hp ⊢
  case restart => exact hp.imp_right fun hs => hs.internal hd
  case beat => exact hp.imp_right fun hs => hs.internal hd
  case asleep =>
    exact ⟨hp.1.imp_right fun hs => hs.internal hd, hp.2.imp_right fun hf => hf.internal hnone⟩
  case awake =>
    exact ⟨hp.1.imp_right fun hs => hs.internal hd, hp.2.1.imp_right fun hf => hf.internal hnone,
      hp.2.2.imp_right fun hs => hs.internal hd⟩
  case adoptSignal => exact ⟨hp.1.internal hd, hp.2.internal hnone⟩
  case adoptFill => exact ⟨hp.1.internal hd, hp.2.1.internal hnone, hp.2.2⟩
  case adoptTick => exact ⟨hp.1.internal hd, hp.2.1.internal hnone, hp.2.2⟩
  case returned =>
    obtain ⟨hdecl, hf, hC, hR⟩ := hp
    exact ⟨hdecl, hf.internal hnone, hC.internal hf hnone, hR⟩

theorem Progress.access (hp : h.Progress t m) (hc : h.Clears t m) (hd : h.stage.Disables m)
    (hy : t.access s = some y) :
    (h.observe s (s.pcOf t.point) y).Progress (t.step s m) (y.apply m) := by
  obtain ⟨hkeep, hfpga, -⟩ := observe_host s h (s.pcOf t.point) y
  unfold Progress at hp ⊢
  rw [hkeep, hfpga]
  cases hstage : h.stage
  all_goals
    rw [hstage] at hd
    simp only [hstage] at hp ⊢
  case restart => exact settled_access hp hc hd hy
  case beat => exact settled_access hp hc hd hy
  case asleep => exact ⟨settled_access hp.1 hc hd hy, fresh_access hp.2 hy⟩
  case awake =>
    exact ⟨settled_access hp.1 hc hd hy, fresh_access hp.2.1 hy,
      hp.2.2.imp_right fun hs => hs.access hd hy _⟩
  case adoptSignal => exact ⟨hp.1.access hd hy _, hp.2.access hy⟩
  case adoptFill => exact ⟨hp.1.access hd hy _, hp.2.1.access hy, hp.2.2⟩
  case adoptTick => exact ⟨hp.1.access hd hy _, hp.2.1.access hy, hp.2.2⟩
  case returned =>
    obtain ⟨hdecl, hf, hC, hR⟩ := hp
    exact ⟨(observe_grows s h _ y).1 hdecl, hf.access hy, hC.access hf hy, hR.access s _ y⟩

end Steps

end Loader

/-- Trading is off as long as nobody stores to `CFG_ENABLE`. -/
theorem LoadStage.Disables.congr {st : LoadStage} {m m' : Addr → Word} (hd : st.Disables m)
    (heq : m' cfgEnable = m cfgEnable) : st.Disables m' := by
  cases st
  case stores todo => exact ⟨hd.1, fun hno => heq.trans (hd.2 hno)⟩
  case before => trivial
  case returned => trivial
  all_goals exact heq.trans hd

end Fmma
