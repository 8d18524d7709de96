import Fmma.Board.Loading
import Fmma.Strategy.Runs

/-!
# Who writes what

The driver from `fmma_fpga_load` on: the stores of the load, then any calls in any order, one store
at a time, beside the CPU. It is loaded onto a CPU that is parked on a zero word, or that is
running the same image already. A `Driver` remembers which words the two sides have stored to.

The write sets are disjoint but for two words of the start-up handshakes: the CPU clears
`CFG_RESTART`, which the driver sets, and the driver clears `FW_VERSION`, which the CPU sets. The
protocol has the host keep out of the output block, where `FW_VERSION` is; `wait_for_cpu` stores to
it in every load.
-/

namespace Fmma

/-! ### The driver's calls -/

/-- The calls of the driver that the application makes at run time. -/
inductive Call
  | publishTick (bid ask bidSize askSize : Word)
  | reportFill (side qty : Word)
  | pushConfig (cfg : FpgaConfig)
  | setEnabled (enabled : Bool)
  | pollSignal
  | readState
  | close

/-- The stores of a call, and the handle after it; polling and reading make loads only. -/
def Call.stores (f : Fpga) : Call → List (Addr × Word) × Fpga
  | .publishTick b a v w => f.publishTick b a v w
  | .reportFill side qty => f.reportFill side qty
  | .pushConfig cfg => (Fmma.pushConfig cfg, f)
  | .setEnabled enabled => (Fmma.setEnabled enabled, f)
  | .pollSignal => ([], f)
  | .readState => ([], f)
  | .close => (Fmma.setEnabled false, f)

/-- The driver: its handle, the stores of the current call that are still to be made, whether the
load has returned 0, and the words each side has stored to. -/
structure Driver where
  fpga : Fpga
  todo : List (Addr × Word)
  running : Bool
  byHost : List Addr
  byCpu : List Addr

namespace Driver

/-- What the driver does: the next store of a call, a load, the end of `wait_for_cpu`, and the
beginning of a call. The counter a poll keeps is the one it loads. -/
inductive Act (h : Driver) (m : Addr → Word) : Option (Access Addr Word) → Driver → Prop
  | store {a v rest} (htodo : h.todo = (a, v) :: rest) :
    Act h m (some (.store a v)) { h with todo := rest, byHost := a :: h.byHost }
  | load (a : Addr) : Act h m (some (.load a)) h
  | poll (hrunning : h.running = true) : Act h m (some (.load signalSeq))
    { h with fpga := (h.fpga.received (m signalSeq) (m signal) (m signalTick)).2 }
  | declared (htodo : h.todo = []) (hrunning : h.running = false)
    (hversion : m fwVersion = protocolVersion) :
    Act h m none { h with fpga := .adopt m, running := true }
  | call (k : Call) (htodo : h.todo = []) (hrunning : h.running = true) :
    Act h m none { h with todo := (k.stores h.fpga).1, fpga := (k.stores h.fpga).2 }

/-- A store of the CPU is remembered. -/
def observe (h : Driver) (x : Access Addr Word) : Driver :=
  match x with
  | .load _ => h
  | .store a _ => { h with byCpu := a :: h.byCpu }

end Driver

/-- The host as a driver. -/
def driver : Host Driver where
  act := Driver.Act
  observe h _ x _ := h.observe x

/-- The CPU is parked: it polls a zero word at `PROGRAM_BASE`. -/
structure Cpu.Parked (c : Cpu) : Prop where
  pc : c.pc = programBase
  word : c.mem programBase = 0

/-- `fmma_fpga_load` begins, on a parked CPU or on one that runs the image already. -/
def Driver.Starts (s : Strategy) (cfg : FpgaConfig) (a : Cpu × Driver) : Prop :=
  (a.1.Parked ∨ s.Runs a.1) ∧ a.2.todo = load cfg s.image ∧ a.2.running = false ∧
    a.2.byHost = [] ∧ a.2.byCpu = []

/-! ### Loading an image -/

namespace Strategy

/-- What is stored into the image's words are the image's words. -/
def Faithful (s : Strategy) (todo : List (Addr × Word)) : Prop :=
  ∀ w ∈ todo, s.InImage w.1 → s.image[w.1.toNat - 8]? = some w.2

/-- After a store to `PROGRAM_BASE` come only stores outside the image. -/
def EntryLast (s : Strategy) : List (Addr × Word) → Prop
  | [] => True
  | w :: rest => (w.1 = programBase → ∀ u ∈ rest, ¬s.InImage u.1) ∧ s.EntryLast rest

/-- The words of the image that are not in the RAM are still to be stored. -/
def Covered (s : Strategy) (m : Addr → Word) (todo : List (Addr × Word)) : Prop :=
  ∀ p, s.InImage p → s.image[p.toNat - 8]? = some (m p) ∨ ∃ w ∈ todo, w.1 = p

variable {s : Strategy} {m : Addr → Word} {c : Cpu} {a : Addr} {v : Word}
  {rest : List (Addr × Word)}

/-- Nothing of the image is left to be stored. -/
theorem Covered.loaded (h : s.Covered m rest) (hrest : ∀ w ∈ rest, ¬s.InImage w.1) :
    s.Loaded m :=
  Loading.Covered.holds s.length_image_le h hrest

/-- The image in the RAM. -/
theorem Loaded.getElem? (h : s.Loaded m) (ha : s.InImage a) :
    s.image[a.toNat - 8]? = some (m a) :=
  Loading.Holds.getElem? h ha

/-- A store of the load keeps what is covered. -/
theorem Covered.store (h : s.Covered m ((a, v) :: rest)) (hf : s.Faithful ((a, v) :: rest)) :
    s.Covered (Function.update m a v) rest :=
  Loading.Covered.store h hf

/-- Storing a word of the image over itself. -/
theorem Loaded.store (h : s.Loaded m) (hf : s.Faithful ((a, v) :: rest)) :
    s.Loaded (Function.update m a v) :=
  Loading.Holds.store s.length_image_le h hf

/-- The load stores the image's words. -/
theorem load_faithful (s : Strategy) (cfg : FpgaConfig) : s.Faithful (load cfg s.image) :=
  Loading.load_faithful s.length_image_le cfg

/-- It stores all of them. -/
theorem load_covered (s : Strategy) (cfg : FpgaConfig) (m : Addr → Word) :
    s.Covered m (load cfg s.image) :=
  Loading.load_covered s.length_image_le cfg m

theorem entryLast_iff {l : List (Addr × Word)} : s.EntryLast l ↔ Loading.EntryLast s.image l := by
  induction l with
  | nil => exact Iff.rfl
  | cons w l ih => exact and_congr_right fun _ => ih

/-- The entry word of the image is stored last. -/
theorem load_entryLast (s : Strategy) (cfg : FpgaConfig) : s.EntryLast (load cfg s.image) :=
  entryLast_iff.mpr (Loading.load_entryLast s.length_image_le cfg)

end Strategy

/-- A parked CPU stays parked, and makes no access. -/
theorem Cpu.Parked.step {c c' : Cpu} (h : c.Parked) (hs : c.Steps c') :
    c'.toCore = c.toCore ∧ c'.mem = c.mem ∧ c.toCore.access c.current = none := by
  have hhalt : c.current = .halt := by
    rw [Cpu.current, h.pc, h.word, decode_zero]
  obtain ⟨hcore, hmem⟩ := hs.eq
  rw [hhalt] at hcore hmem ⊢
  exact ⟨hcore, hmem, rfl⟩

/-! ### The invariant -/

namespace Driver

/-- The CPU is parked and the image is being stored, or the CPU runs the image and what is still
to be stored into it is the image. -/
def Phase (s : Strategy) (c : Cpu) (h : Driver) : Prop :=
  (c.Parked ∧ h.running = false ∧ s.Covered c.mem h.todo ∧ s.EntryLast h.todo) ∨ s.Runs c

/-- **The invariant** of the write sets. -/
structure Inv (s : Strategy) (c : Cpu) (h : Driver) : Prop where
  phase : h.Phase s c
  faithful : s.Faithful h.todo
  todo : ∀ w ∈ h.todo, w.1 < outputBase ∨ w.1 = fwVersion
  byHost : ∀ a ∈ h.byHost, a < outputBase ∨ a = fwVersion
  byCpu : ∀ a ∈ h.byCpu, (heartbeat ≤ a ∧ a ≤ quoteAsk) ∨ a = cfgRestart
  version : fwVersion ∈ h.byHost ∨ (fwVersion, 0) ∈ h.todo

variable {s : Strategy} {c c' : Cpu} {h h' : Driver} {x : Option (Access Addr Word)}

/-- The load begins. -/
theorem Starts.inv {cfg : FpgaConfig} (hs : Starts s cfg (c, h)) : Inv s c h := by
  obtain ⟨hcpu, htodo, hrunning, hhost, hbyCpu⟩ := hs
  change h.todo = _ at htodo
  change h.byHost = _ at hhost
  change h.byCpu = _ at hbyCpu
  refine ⟨?_, ?_, fun w hw => ?_, fun a ha => ?_, fun a ha => ?_, .inr ?_⟩
  · rcases hcpu with hparked | hruns
    · rw [Phase, htodo]
      exact .inl ⟨hparked, hrunning, s.load_covered cfg c.mem, s.load_entryLast cfg⟩
    · exact .inr hruns
  · rw [htodo]
    exact s.load_faithful cfg
  · rw [htodo] at hw
    have hlen := s.length_image_le
    rcases (Loading.mem_load hlen).mp hw with hw | hw | hw
    · exact (Loading.load_shared cfg (.inl hw)).2
    · obtain ⟨-, hlt⟩ := (Loading.writeProgram_addr hlen hw).1
      refine .inl (BitVec.lt_def.mpr ?_)
      change w.1.toNat < 320
      omega
    · exact (Loading.load_shared cfg (.inr hw)).2
  · rw [hhost] at ha
    cases ha
  · rw [hbyCpu] at ha
    cases ha
  · rw [htodo]
    exact (Loading.mem_load s.length_image_le).mpr (.inr (.inr List.mem_cons_self))

/-- The image has an entry word, and it is not zero. -/
theorem Phase.todo_ne_nil (hp : c.Parked) (hcov : s.Covered c.mem h.todo) : h.todo ≠ [] := by
  intro hnil
  have himage : s.InImage programBase := by cases s <;> decide +kernel
  rcases hcov _ himage with hword | ⟨w, hw, -⟩
  · rw [hp.word] at hword
    revert hword
    cases s <;> decide +kernel
  · rw [hnil] at hw
    cases hw

/-- The driver's calls store to its own words. -/
theorem call_shared (k : Call) (f : Fpga) {w : Addr × Word} (hw : w ∈ (k.stores f).1) :
    inputBase ≤ w.1 ∧ w.1 < outputBase := by
  cases k with
  | publishTick b a v u =>
    simp only [Call.stores, Fpga.publishTick, List.mem_cons, List.not_mem_nil, or_false] at hw
    rcases hw with rfl | rfl | rfl | rfl | rfl | rfl
    all_goals
      dsimp only
      decide
  | reportFill side qty =>
    simp only [Call.stores, Fpga.reportFill, List.mem_cons, List.not_mem_nil, or_false] at hw
    rcases hw with rfl | rfl | rfl
    all_goals
      dsimp only
      decide
  | pushConfig cfg =>
    simp only [Call.stores, Fmma.pushConfig, List.mem_cons, List.not_mem_nil, or_false] at hw
    rcases hw with rfl | rfl | rfl | rfl | rfl
    all_goals
      dsimp only
      decide
  | setEnabled enabled =>
    simp only [Call.stores, Fmma.setEnabled, List.mem_cons, List.not_mem_nil, or_false] at hw
    subst hw
    dsimp only
    decide
  | close =>
    simp only [Call.stores, Fmma.setEnabled, List.mem_cons, List.not_mem_nil, or_false] at hw
    subst hw
    dsimp only
    decide
  | pollSignal => cases hw
  | readState => cases hw

/-- A store of the driver. -/
theorem Inv.store {a : Addr} {v : Word} {rest : List (Addr × Word)} (hI : Inv s c h)
    (htodo : h.todo = (a, v) :: rest) :
    Inv s (c.write a v) { h with todo := rest, byHost := a :: h.byHost } := by
  obtain ⟨hphase, hfaithful, hbound, hhost, hcpu, hversion⟩ := hI
  rw [htodo] at hfaithful hbound hversion
  refine ⟨?_, fun w hw => hfaithful w (List.mem_cons_of_mem _ hw),
    fun w hw => hbound w (List.mem_cons_of_mem _ hw), fun b hb => ?_, hcpu, ?_⟩
  · rcases hphase with ⟨hparked, hrunning, hcov, hlast⟩ | hruns
    · rw [htodo] at hcov hlast
      have hcov' := hcov.store hfaithful
      by_cases ha : a = programBase
      · -- the entry word: the image is complete, and the CPU begins it
        exact .inr (.of_programBase (hcov'.loaded (hlast.1 ha)) hparked.pc)
      · have hword : Function.update c.mem a v programBase = 0 :=
          (Function.update_of_ne (Ne.symm ha) v c.mem).trans hparked.word
        exact .inl ⟨⟨hparked.pc, hword⟩, hrunning, hcov', hlast.2⟩
    · exact .inr ⟨hruns.sim, hruns.loaded.store hfaithful⟩
  · rcases List.mem_cons.mp hb with rfl | hb
    · exact hbound (b, v) List.mem_cons_self
    · exact hhost b hb
  · rcases hversion with hdone | hversion
    · exact .inl (List.mem_cons_of_mem a hdone)
    · rcases List.mem_cons.mp hversion with heq | hrest
      · cases heq
        exact .inl List.mem_cons_self
      · exact .inr hrest

/-- `wait_for_cpu` has cleared `FW_VERSION` when it waits. -/
theorem Inv.version_of_nil (hI : Inv s c h) (htodo : h.todo = []) : fwVersion ∈ h.byHost := by
  refine hI.version.resolve_right fun hmem => ?_
  rw [htodo] at hmem
  cases hmem

/-- Everything the driver does keeps the invariant. -/
theorem Inv.act (hI : Inv s c h) (hx : Act h c.mem x h') :
    Inv s { c with mem := Access.applyOpt c.mem x } h' := by
  cases hx with
  | store htodo => exact hI.store htodo
  | load a => exact hI
  | poll hrunning =>
    exact ⟨hI.phase, hI.faithful, hI.todo, hI.byHost, hI.byCpu, hI.version⟩
  | declared htodo hrunning hversion =>
    refine ⟨?_, hI.faithful, hI.todo, hI.byHost, hI.byCpu, hI.version⟩
    rcases hI.phase with ⟨hparked, -, hcov, -⟩ | hruns
    · exact absurd htodo (Phase.todo_ne_nil hparked hcov)
    · exact .inr hruns
  | call k htodo hrunning =>
    refine ⟨?_, fun w hw himage => ?_, fun w hw => .inl (call_shared k _ hw).2, hI.byHost,
      hI.byCpu, .inl (hI.version_of_nil htodo)⟩
    · rcases hI.phase with ⟨-, hnot, -⟩ | hruns
      · rw [hrunning] at hnot
        cases hnot
      · exact .inr hruns
    · exact absurd himage (Strategy.not_inImage_of_inputBase_le (call_shared k _ hw).1)

/-- An instruction without an access. -/
theorem Inv.internal (hI : Inv s c h) (hs : c.Steps c') : Inv s c' h := by
  refine ⟨?_, hI.faithful, hI.todo, hI.byHost, hI.byCpu, hI.version⟩
  rcases hI.phase with ⟨hparked, hrunning, hcov, hlast⟩ | hruns
  · obtain ⟨hcore, hmem, -⟩ := hparked.step hs
    refine .inl ⟨⟨?_, ?_⟩, hrunning, hmem.symm ▸ hcov, hlast⟩
    · rw [hcore]
      exact hparked.pc
    · rw [hmem]
      exact hparked.word
  · exact .inr (hruns.step hs)

/-- A load or store of the CPU. -/
theorem Inv.access {y : Access Addr Word} (hI : Inv s c h) (hs : c.Steps c')
    (hy : c.toCore.access c.current = some y) : Inv s c' (h.observe y) := by
  rcases hI.phase with ⟨hparked, -⟩ | hruns
  · rw [(hparked.step hs).2.2] at hy
    cases hy
  · cases y with
    | load a =>
      exact ⟨.inr (hruns.step hs), hI.faithful, hI.todo, hI.byHost, hI.byCpu, hI.version⟩
    | store a v =>
      refine ⟨.inr (hruns.step hs), hI.faithful, hI.todo, hI.byHost, fun b hb => ?_,
        hI.version⟩
      rcases List.mem_cons.mp hb with rfl | hb
      · exact (hruns.stores hy).imp_right And.left
      · exact hI.byCpu b hb

/-- The invariant in every reachable state. -/
theorem reachable_inv {cfg : FpgaConfig}
    (hr : cpuMachine.Reachable driver (Starts s cfg) (c, h)) : Inv s c h := by
  refine hr.invariant (I := fun a => Inv s a.1 a.2) (fun a ha => Starts.inv ha) ?_
  rintro a b hI hab
  cases hab with
  | internal hs he => exact hI.internal hs
  | @access c c' h i y hs he hp =>
    obtain ⟨hy, -⟩ : c.toCore.access c.current = some y ∧ c.pc = i := by
      simpa [cpuMachine] using he
    exact hI.access hs hy
  | act hx => exact hI.act hx
  | reset hr hh => exact hh.elim

end Driver

/-- The write sets of the protocol: the host stores below the output block, the CPU into it, and no
word is stored to by both. -/
structure Driver.Separate (h : Driver) : Prop where
  host : ∀ a ∈ h.byHost, a < outputBase
  cpu : ∀ a ∈ h.byCpu, outputBase ≤ a ∧ a < freeBase
  disjoint : ∀ a ∈ h.byHost, a ∉ h.byCpu

/-- The two stores that are in the way of the protocol. -/
theorem Driver.Inv.separate_iff {s : Strategy} {c : Cpu} {h : Driver} (hI : Driver.Inv s c h) :
    h.Separate ↔ fwVersion ∉ h.byHost ∧ cfgRestart ∉ h.byCpu := by
  constructor
  · intro hsep
    exact ⟨fun hmem => absurd (hsep.host fwVersion hmem) (by decide),
      fun hmem => absurd (hsep.cpu cfgRestart hmem).1 (by decide)⟩
  · rintro ⟨hversion, hrestart⟩
    have hhost : ∀ a ∈ h.byHost, a < outputBase := fun a ha =>
      (hI.byHost a ha).resolve_right fun heq => hversion (heq ▸ ha)
    have hcpu : ∀ a ∈ h.byCpu, outputBase ≤ a ∧ a < freeBase := fun a ha => by
      obtain ⟨hlo, hhi⟩ := (hI.byCpu a ha).resolve_right fun heq => hrestart (heq ▸ ha)
      have hlt : quoteAsk.toNat < freeBase.toNat := by decide
      exact ⟨hlo, BitVec.lt_def.mpr (Nat.lt_of_le_of_lt (BitVec.le_def.mp hhi) hlt)⟩
    exact ⟨hhost, hcpu, fun a ha hmem => absurd (hhost a ha) (BitVec.not_lt.mpr (hcpu a hmem).1)⟩

/-- **Write sets.** From `fmma_fpga_load` on, in any interleaving of the driver's calls with the
program: the driver stores to words below 320 and to `FW_VERSION`, the program to
`HEARTBEAT..QUOTE_ASK` and to `CFG_RESTART`, and these two are the only words both store to. The
write sets are those of the protocol just until the driver clears `FW_VERSION` or the program clears
`CFG_RESTART`, and the driver has done so in every load whose stores are made. -/
theorem write_sets (s : Strategy) (cfg : FpgaConfig) {c : Cpu} {h : Driver}
    (hr : cpuMachine.Reachable driver (Driver.Starts s cfg) (c, h)) :
    ((∀ a ∈ h.byHost, a < outputBase ∨ a = fwVersion) ∧
      (∀ a ∈ h.byCpu, (heartbeat ≤ a ∧ a ≤ quoteAsk) ∨ a = cfgRestart) ∧
      ∀ a ∈ h.byHost, a ∈ h.byCpu → a = cfgRestart ∨ a = fwVersion) ∧
    (h.Separate ↔ fwVersion ∉ h.byHost ∧ cfgRestart ∉ h.byCpu) ∧
    (h.todo = [] → fwVersion ∈ h.byHost) := by
  have hI := Driver.reachable_inv hr
  refine ⟨⟨hI.byHost, hI.byCpu, fun a hhost hcpu => ?_⟩, hI.separate_iff, hI.version_of_nil⟩
  rcases hI.byCpu a hcpu with ⟨hlo, -⟩ | heq
  · rcases hI.byHost a hhost with hlt | heq
    · exact absurd hlt (BitVec.not_lt.mpr hlo)
    · exact .inr heq
  · exact .inl heq

/-! ### A concrete run -/

/-- The driver makes the first stores of its call, one after the other. -/
theorem Driver.performs (c : Cpu) (h : Driver) {l rest : List (Addr × Word)}
    (htodo : h.todo = l ++ rest) :
    Relation.ReflTransGen (cpuMachine.Step driver) (c, h)
      (c.writes l, { h with
        todo := rest
        byHost := (l.map Prod.fst).reverse ++ h.byHost }) := by
  obtain ⟨f, todo, running, byHost, byCpu⟩ := h
  change todo = _ at htodo
  subst htodo
  induction l generalizing c byHost with
  | nil => exact .refl
  | cons w l ih =>
    have hstep : cpuMachine.Step driver (c, ⟨f, (w :: l) ++ rest, running, byHost, byCpu⟩)
        (c.write w.1 w.2, ⟨f, l ++ rest, running, w.1 :: byHost, byCpu⟩) :=
      .act (M := cpuMachine) (E := driver) (a := c) (Driver.Act.store (a := w.1) (v := w.2) rfl)
    have hrest := ih (c.write w.1 w.2) (w.1 :: byHost)
    simp only [List.map_cons, List.reverse_cons, List.append_assoc, List.singleton_append]
    exact .head hstep hrest

/-- A driver that does nothing for the time being. -/
def idleDriver : Host Driver where
  act _ _ _ _ := False
  observe h _ x _ := h.observe x

/-- Its runs are runs of the driver. -/
theorem step_of_idleDriver {a b : Cpu × Driver} (h : cpuMachine.Step idleDriver a b) :
    cpuMachine.Step driver a b := by
  cases h with
  | internal hs he => exact .internal hs he
  | access hs he hp => exact .access (E := driver) hs he trivial
  | act hx => exact hx.elim
  | reset hr hh => exact hh.elim

/-- Scripts without the driver. -/
def idleDirector (s : Strategy) : Director s idleDriver Unit where
  perform _ _ _ := none
  ok _ := true
  perform_act hk := by cases hk
  ok_permitted _ _ _ := trivial

/-- A driver that begins to load an image, with all settings zero. -/
def Driver.loading (s : Strategy) : Driver where
  fpga := ⟨0, 0, 0⟩
  todo := load ⟨0, 0, 0, 0, 0⟩ s.image
  running := false
  byHost := []
  byCpu := []

/-- The same, with the image in place. -/
def Driver.waiting (s : Strategy) : Driver :=
  { Driver.loading s with
    todo := []
    byHost := ((Driver.loading s).todo.map Prod.fst).reverse ++ [] }

/-- A RAM of zeros after the load. -/
def loadedRam (s : Strategy) : Addr → Word :=
  ((powerUp fun _ => 0).writes (Driver.loading s).todo).mem

/-- An image that is in the RAM. -/
theorem Strategy.install_eq_self {s : Strategy} {m : Addr → Word} (h : s.Loaded m) :
    s.install m = m := by
  funext a
  simp only [install]
  split_ifs with ha
  · rw [List.getD_eq_getElem?_getD, h.getElem? ha, Option.getD_some]
  · rfl

/-- The load onto a parked CPU with a RAM of zeros. -/
theorem Driver.exists_parked (s : Strategy) {c : Cpu} (hpc : c.pc = programBase)
    (hmem : c.mem = loadedRam s) : ∃ c₀ : Cpu, c₀.Parked ∧
      Relation.ReflTransGen (cpuMachine.Step driver) (c₀, .loading s) (c, .waiting s) := by
  have heq : ({ c with mem := fun _ => 0 } : Cpu).writes (Driver.loading s).todo = c := by
    have hram : (({ c with mem := fun _ => 0 } : Cpu).writes (Driver.loading s).todo).mem = c.mem :=
      (Cpu.writes_mem (c := { c with mem := fun _ => 0 }) (d := powerUp fun _ => 0) rfl _).trans
        hmem.symm
    rw [Cpu.writes_eq, hram]
  refine ⟨{ c with mem := fun _ => 0 }, ⟨hpc, rfl⟩, ?_⟩
  have hrun := Driver.performs { c with mem := fun _ => 0 } (.loading s) (List.append_nil _).symm
  rw [heq] at hrun
  exact hrun

theorem Driver.reachable_waiting (s : Strategy) {c : Cpu} (hpc : c.pc = programBase)
    (hmem : c.mem = loadedRam s) :
    cpuMachine.Reachable driver (Driver.Starts s ⟨0, 0, 0, 0, 0⟩) (c, .waiting s) := by
  obtain ⟨c₀, hparked, hrun⟩ := Driver.exists_parked s hpc hmem
  exact ⟨(c₀, .loading s), ⟨.inl hparked, rfl, rfl, rfl, rfl⟩, hrun⟩

/-- It leaves the image in the RAM. -/
theorem loaded_loadedRam (s : Strategy) : s.Loaded (loadedRam s) := by
  have hI := Driver.reachable_inv (Driver.reachable_waiting s (c := powerUp (loadedRam s)) rfl rfl)
  rcases hI.phase with ⟨hparked, -, hcov, -⟩ | hruns
  · exact absurd rfl (Driver.Phase.todo_ne_nil hparked hcov)
  · exact hruns.loaded

/-- The driver clears `FW_VERSION` while the program starts, and the program declares its
version. -/
theorem exists_written_twice : ∃ (c : Cpu) (h : Driver),
    cpuMachine.Reachable driver (Driver.Starts .trading ⟨0, 0, 0, 0, 0⟩) (c, h) ∧
      fwVersion ∈ h.byHost ∧ fwVersion ∈ h.byCpu := by
  obtain ⟨t, c, h, ⟨⟨a, b⟩, ⟨hpc, -, hmem, rfl⟩, hrun⟩, -, hP⟩ :=
    (idleDirector .trading).exists_reachable (fun _ _ _ _ hx => hx.elim) (fun _ _ h => h)
      (fun m h => m = loadedRam .trading ∧ h = .waiting .trading) (m := loadedRam .trading)
      (h := .waiting .trading) ⟨Strategy.install_eq_self (loaded_loadedRam .trading), rfl⟩
      [.cpu 12] (P := fun a => fwVersion ∈ a.2.byHost ∧ fwVersion ∈ a.2.byCpu) (by decide +kernel)
  obtain ⟨hhost, hcpu⟩ := of_decide_eq_true hP
  obtain ⟨a', ha', hload⟩ := Driver.reachable_waiting .trading hpc hmem
  refine ⟨c, h, ⟨a', ha', hload.trans ?_⟩, hhost, hcpu⟩
  exact Relation.ReflTransGen.mono (fun _ _ => step_of_idleDriver) _ _ hrun

/-- In that run, the two words of the handshakes are the only ones written twice, and the write sets
are not those of the protocol. -/
theorem write_sets_declared : ∃ h : Driver, fwVersion ∈ h.byHost ∧ fwVersion ∈ h.byCpu ∧
    (∀ a ∈ h.byHost, a ∈ h.byCpu → a = cfgRestart ∨ a = fwVersion) ∧ ¬h.Separate := by
  obtain ⟨c, h, hr, hhost, hcpu⟩ := exists_written_twice
  obtain ⟨⟨-, -, htwice⟩, hsep, -⟩ := write_sets .trading _ hr
  exact ⟨h, hhost, hcpu, htwice, fun hs => (hsep.mp hs).1 hhost⟩

/-- **The write sets are not those of the protocol**: `FW_VERSION` is written by both sides. -/
theorem not_write_sets_disjoint : ¬∀ (c : Cpu) (h : Driver),
    cpuMachine.Reachable driver (Driver.Starts .trading ⟨0, 0, 0, 0, 0⟩) (c, h) → h.Separate := by
  intro hall
  obtain ⟨c, h, hr, hhost, hcpu⟩ := exists_written_twice
  exact (hall c h hr).disjoint fwVersion hhost hcpu

end Fmma
