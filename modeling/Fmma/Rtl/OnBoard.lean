import Fmma.Board.Containment
import Fmma.Lib.Synchronous
import Fmma.Rtl.Refine

/-!
# The strategies on the hardware

`cpu_core` runs an image beside a host on the other port of the RAM, clock by clock. What the host
has done and seen is in a record, kept by the environment that stands for the host on the board. A
run by the clock is then one of the interleavings of `cpuMachine`, so that all that has been proved
of the board holds of the core in every clock.
-/

namespace Fmma

theorem cpuMachine_holds : cpuMachine.Holds where
  mem_setMem _ _ := rfl
  setMem_mem _ := rfl

/-! ### The instructions of the images -/

/-- A test for the instructions that the core and the simulator agree on. -/
def Decoded.supportedTest : Decoded → Bool
  | .rtype op _ _ | .itype op _ _ => op.any fun o => o != .ADDC && o != .SUBC
  | .undefined => false
  | _ => true

theorem Decoded.supported_of_test {d : Decoded} (h : d.supportedTest = true) : d.Supported := by
  have hop : ∀ op : Option AluOp, (op.any fun o => o != .ADDC && o != .SUBC) = true →
      ∃ o, op = some o ∧ o ≠ .ADDC ∧ o ≠ .SUBC := by
    intro op hop
    obtain ⟨o, ho, htest⟩ := (Option.any_eq_true _ _).mp hop
    rw [Bool.and_eq_true, bne_iff_ne, bne_iff_ne] at htest
    exact ⟨o, ho, htest⟩
  cases d with
  | rtype op rd rs => exact hop op h
  | itype op rd imm => exact hop op h
  | undefined => exact absurd h Bool.false_ne_true
  | halt | load rd ra | stor rs ra | branch cond disp | jump cond rt => exact trivial

namespace Strategy

variable {s : Strategy} {c : Cpu}

theorem supportedTest_listing (s : Strategy) :
    (s.listing.all Decoded.supportedTest) = true := by
  cases s <;> decide +kernel

/-- The next instruction of a CPU that runs a strategy is one that the core supports. -/
theorem Runs.supported (h : s.Runs c) : c.current.Supported := by
  have hhalt := h.executes.1
  rw [h.current] at hhalt ⊢
  rw [code, List.getD_eq_getElem?_getD] at hhalt ⊢
  cases hget : (List.replicate 8 Decoded.halt ++ s.listing)[c.pc.toNat]? with
  | none =>
    rw [hget] at hhalt
    exact absurd rfl hhalt
  | some d =>
    rw [hget, Option.getD_some] at hhalt
    have hmem : d ∈ s.listing := by
      refine (List.mem_append.mp (List.mem_of_getElem? hget)).resolve_left fun hd => ?_
      exact hhalt (List.eq_of_mem_replicate hd)
    exact Decoded.supported_of_test (List.all_eq_true.mp s.supportedTest_listing d hmem)

end Strategy

/-! ### The port of the RAM -/

namespace Fabric

variable {f : Fabric} {w : Word} {host : HostWrite} {c : Cpu} {s : Strategy}

/-- What the core does on its port of the RAM but fetch: it stores, or it loads. -/
def access (f : Fabric) : Option (Access Addr Word) :=
  if f.core.memWrite then some (.store f.core.memAddr f.core.memWdata)
  else if f.core.fsm.ls then some (.load f.core.memAddr)
  else none

theorem Quiet.access (h : f.Quiet) : f.access = none := by
  rw [Fabric.access, CpuCore.memWrite, h.we, h.ls]
  rfl

/-- The access of an instruction that has been decoded. -/
theorem Decoding.access (h : f.Decoding w) : f.access = f.toCore.access (decode w) := by
  obtain ⟨hir, hfsm⟩ := h
  simp only [Fabric.access, CpuCore.memWrite, CpuCore.memAddr, CpuCore.memWdata, CpuCore.rAddr,
    CpuCore.rSrc2, hir, hfsm]
  -- the cases of both decoders, in the order of the FSM
  by_cases hw : w = 0
  · simp only [Fsm.decode, decode, if_pos hw]
    rfl
  by_cases hls : w.extractLsb' 12 4 = 0b0100
  · by_cases hstor : w.extractLsb' 4 4 = 0b0100
    · simp only [Fsm.decode, decode, if_neg hw, if_pos hls, if_pos hstor]
      rfl
    by_cases hload : w.extractLsb' 4 4 = 0b0000
    · simp only [Fsm.decode, decode, if_neg hw, if_pos hls, if_neg hstor, if_pos hload]
      rfl
    by_cases hjump : w.extractLsb' 4 4 = 0b1100
    · simp only [Fsm.decode, decode, if_neg hw, if_pos hls, if_neg hstor, if_neg hload,
        if_pos hjump]
      rfl
    · simp only [Fsm.decode, decode, if_neg hw, if_pos hls, if_neg hstor, if_neg hload,
        if_neg hjump]
      rfl
  by_cases hbranch : w.extractLsb' 12 4 = 0b1100
  · simp only [Fsm.decode, decode, if_neg hw, if_neg hls, if_pos hbranch]
    rfl
  by_cases hrtype : w.extractLsb' 12 4 = 0b0000
  · simp only [Fsm.decode, decode, if_neg hw, if_neg hls, if_neg hbranch, if_pos hrtype]
    rfl
  · simp only [Fsm.decode, decode, if_neg hw, if_neg hls, if_neg hbranch, if_neg hrtype]
    rfl

variable {η : Type*}

/-- What the environment has seen after the core's access of a clock. -/
def observed (f : Fabric) (E : Host η) (h : η) : η :=
  match f.access with
  | none => h
  | some x => E.observe h f.core.pc x f.ram

/-- **A clock of the environment**: from the record before to the record after it. It acts, it sees
what the core does on its port and permits that, and it acts again. -/
def Records (f : Fabric) (E : Host η) (host : HostWrite) (h h' : η) : Prop :=
  ∃ g, Relation.ReflTransGen (E.Silent f.ram) h g ∧
    (∀ x, f.access = some x → E.permits g f.core.pc x f.ram) ∧
    E.Acts (Access.applyOpt f.ram f.access) host (f.observed E g) h'

/-! ### One clock -/

/-- A CPU that runs a strategy finds no zero word. -/
theorem Agrees.word_ne_zero (h : f.Agrees c) (hruns : s.Runs c) : f.word ≠ 0 := by
  intro hzero
  refine hruns.executes.1 ?_
  rw [h.current, hzero, decode_zero]

/-- The host may write outside the image. -/
theorem Agrees.allows (h : f.Agrees c) (hruns : s.Runs c) (hapart : f.Apart host)
    (hshared : ∀ a v, host = some (a, v) → inputBase ≤ a) : f.Allows host := by
  intro a v ha
  refine ⟨hapart a v ha, fun _ heq => ?_⟩
  have hpc : f.core.pc = c.pc := congrArg Core.pc h.core
  refine Strategy.not_inImage_of_inputBase_le (s := s) (hshared a v ha) ?_
  rw [heq, hpc]
  exact hruns.inImage

/-- While the core fetches and decodes, it does nothing on its port. -/
theorem Phase.access_of_waits (hphase : f.Phase) (hacts : f.acts = false) : f.access = none := by
  cases hphase with
  | fetching hfetch => exact hfetch.quiet.access
  | decoding hdecode => exact (quiet_of_idle hdecode).access
  | halted hquiet hstate => exact hquiet.access
  | ready hready =>
    rw [hready.acts] at hacts
    cases hacts

/-- A clock in which the core acts, and finds no zero word, executes an instruction. -/
theorem Phase.ready_of_acts (hphase : f.Phase) (hacts : f.acts = true) (hzero : f.word ≠ 0) :
    f.Ready := by
  have hpolls : ¬(f.core.fsm.state = .S1 ∨ f.core.fsm.state = .hlt) := by
    intro hstate
    rw [acts_of_polls hstate, decide_eq_true_eq] at hacts
    exact hzero hacts
  cases hphase with
  | fetching hfetch =>
    rw [hfetch.waits] at hacts
    cases hacts
  | decoding hdecode => exact absurd (.inl (congrArg Fsm.state hdecode)) hpolls
  | halted hquiet hstate => exact absurd (.inr hstate) hpolls
  | ready hready => exact hready

/-- **A clock is a cycle of the machine**: the simulator's step, if it takes one, with the access
that the core makes on its port. -/
theorem Agrees.tick {E : Host η} {h h' : η} (hagrees : f.Agrees c) (hphase : f.Phase)
    (hruns : s.Runs c) (hrec : f.Records E host h h') :
    cpuMachine.Tick E host (c, h) (f.follow host c, h') := by
  obtain ⟨g, hsilent, hpermits, hacts⟩ := hrec
  have hram : f.ram = c.mem := hagrees.ram
  have hpc : f.core.pc = c.pc := congrArg Core.pc hagrees.core
  cases hact : f.acts with
  | false =>
    have haccess := hphase.access_of_waits hact
    rw [observed, haccess, Access.applyOpt_none, hram] at hacts
    rw [hram] at hsilent
    rw [follow_of_waits hact]
    exact ⟨g, c, g, hsilent, .waits, hacts, rfl⟩
  | true =>
    have hready := hphase.ready_of_acts hact (hagrees.word_ne_zero hruns)
    have haccess : f.access = c.toCore.access c.current := by
      rw [hready.decoding.access, hagrees.core, hagrees.current]
    have hsteps : c.Steps c.next := Cpu.steps_next hruns.executes.2
    have hmem : c.next.mem = Access.applyOpt c.mem (c.toCore.access c.current) := hsteps.eq.2
    rw [haccess, hram, hpc] at hpermits
    rw [observed, haccess, hram, hpc, ← hmem] at hacts
    rw [hram] at hsilent
    rw [follow_of_acts hact]
    cases hx : c.toCore.access c.current with
    | none =>
      rw [hx] at hacts
      have hevent : cpuMachine.event c = none := congrArg (Option.map (c.pc, ·)) hx
      exact ⟨g, c.next, g, hsilent, .internal hsteps hevent, hacts, rfl⟩
    | some x =>
      rw [hx] at hacts hpermits
      have hevent : cpuMachine.event c = some (c.pc, x) := congrArg (Option.map (c.pc, ·)) hx
      exact ⟨g, c.next, _, hsilent, .access hsteps hevent (hpermits x rfl), hacts, rfl⟩

/-! ### Runs -/

/-- What the board reaches is a CPU that runs the strategy. -/
theorem runs_of_reachable {E : Host η} (hE : E.OnlyShared) {init : (Addr → Word) → η → Prop}
    {h : η} (hr : cpuMachine.Reachable E (boot s init) (c, h)) : s.Runs c :=
  hr.invariant (I := fun a => s.Runs a.1) (fun _ ha => .of_programBase ha.2.1 ha.1)
    fun _ _ => runs_of_step hE

/-- After a clock the core is in a phase, and where the board can take the CPU. -/
structure OnBoard (f : Fabric) (s : Strategy) (E : Host η) (init : (Addr → Word) → η → Prop)
    (h : η) (c : Cpu) : Prop where
  phase : f.Phase
  agrees : f.Agrees c
  reachable : cpuMachine.Reachable E (boot s init) (c, h)

/-- A core that has been reset. -/
theorem onBoard_reset {E : Host η} {init : (Addr → Word) → η → Prop} {h : η}
    (hreset : f.AfterReset) (hloaded : s.Loaded f.ram) (hinit : init f.ram h) :
    f.OnBoard s E init h f.initial := by
  obtain ⟨d, m, hcore⟩ := hreset
  have hfsm : f.core.fsm = Fsm.idle .S0 := by rw [hcore]; rfl
  have hstart : f.toCore = f.initial.toCore := by rw [toCore, hcore]; rfl
  exact ⟨.fetching ⟨quiet_of_idle hfsm, congrArg Fsm.state hfsm⟩, ⟨hstart, rfl⟩,
    _, ⟨rfl, hloaded, hinit⟩, .refl⟩

/-- **One clock keeps the core on the board.** -/
theorem OnBoard.clock {E : Host η} (hE : E.OnlyShared) {init : (Addr → Word) → η → Prop}
    {h h' : η} (hf : f.OnBoard s E init h c) (hapart : f.Apart host)
    (hrec : f.Records E host h h') : (f.clock host).OnBoard s E init h' (f.follow host c) := by
  obtain ⟨hphase, hagrees, hreach⟩ := hf
  have hruns := runs_of_reachable hE hreach
  have hshared : ∀ a v, host = some (a, v) → inputBase ≤ a := by
    obtain ⟨g, -, -, hacts⟩ := hrec
    exact fun a v ha => hacts.of_storesWithin hE ha
  obtain ⟨hphase', hagrees'⟩ := hphase.step hagrees (hagrees.allows hruns hapart hshared)
    fun _ => hagrees.current ▸ hruns.supported
  exact ⟨hphase', hagrees', hreach.tick cpuMachine_holds (hagrees.tick hphase hruns hrec)⟩

open Clocked (after)

section Runs

variable {E : Host η} (init : (Addr → Word) → η → Prop) {hosts : ℕ → HostWrite} (record : ℕ → η)

/-- The core stays on the board. -/
theorem exists_onBoard (hE : E.OnlyShared) (hreset : f.AfterReset) (hloaded : s.Loaded f.ram)
    (hinit : init f.ram (record 0)) (hapart : ∀ n, (after clock f hosts n).Apart (hosts n))
    (hrec : ∀ n, (after clock f hosts n).Records E (hosts n) (record n) (record (n + 1))) (n : ℕ) :
    ∃ c, (after clock f hosts n).OnBoard s E init (record n) c := by
  induction n with
  | zero => exact ⟨_, onBoard_reset hreset hloaded hinit⟩
  | succ n ih =>
    obtain ⟨c, hc⟩ := ih
    exact ⟨_, hc.clock hE (hapart n) (hrec n)⟩

/-- A run on the board is one in which the core and the simulator agree. -/
theorem proper_of_records (hE : E.OnlyShared) (hreset : f.AfterReset) (hloaded : s.Loaded f.ram)
    (hinit : init f.ram (record 0)) (hapart : ∀ n, (after clock f hosts n).Apart (hosts n))
    (hrec : ∀ n, (after clock f hosts n).Records E (hosts n) (record n) (record (n + 1))) :
    f.Proper hosts := by
  intro n
  obtain ⟨c, -, hagrees, hreach⟩ :=
    exists_onBoard init record hE hreset hloaded hinit hapart hrec n
  have hruns := runs_of_reachable hE hreach
  obtain ⟨g, -, -, hacts⟩ := hrec n
  refine ⟨hagrees.allows hruns (hapart n) fun a v ha => hacts.of_storesWithin hE ha, fun _ => ?_⟩
  exact hagrees.current ▸ hruns.supported

end Runs

end Fabric

open Clocked (after)

/-- **The hardware is on the board.** A core that has been reset, with an image in the RAM, runs
beside a host that stores into the shared blocks only, and no word is written by both at one edge.
After every clock it is in a state that the board can reach, with the record that the environment of
the board keeps of the run: every invariant of the board is one of the hardware. -/
theorem hardware_reaches (s : Strategy) {η : Type*} {E : Host η} (hE : E.OnlyShared)
    {init : (Addr → Word) → η → Prop} (f : Fabric) (host : ℕ → HostWrite) (record : ℕ → η)
    (hreset : f.AfterReset) (hloaded : s.Loaded f.ram) (hinit : init f.ram (record 0))
    (hapart : ∀ n, (after Fabric.clock f host n).Apart (host n))
    (hrec : ∀ n, (after Fabric.clock f host n).Records E (host n) (record n) (record (n + 1)))
    (n : ℕ) : ∃ c, (after Fabric.clock f host n).Agrees c ∧
      cpuMachine.Reachable E (boot s init) (c, record n) := by
  obtain ⟨c, hc⟩ := Fabric.exists_onBoard init record hE hreset hloaded hinit hapart hrec n
  exact ⟨c, hc.agrees, hc.reachable⟩

/-- A core in reset, with `Trading_FSM` in the RAM. -/
def inReset : Fabric where
  core := ⟨8, 0, .clear, fun _ => 0, Fsm.idle .S0⟩
  ram := Strategy.trading.install fun _ => 0

/-- A host that stores one word, in the first clock. -/
def oneStore (n : ℕ) : HostWrite :=
  if n = 0 then some (cfgThresh, 5) else none

/-- The host is not in the way of the core. -/
theorem apart_oneStore (n : ℕ) : (after Fabric.clock inReset oneStore n).Apart (oneStore n) := by
  intro a v ha hwrite
  cases n with
  | zero => cases hwrite
  | succ n => cases ha

/-- It stores into the input block. -/
theorem records_oneStore (n : ℕ) :
    (after Fabric.clock inReset oneStore n).Records meddler (oneStore n) () () := by
  cases n with
  | zero =>
    refine ⟨(), .refl, fun _ _ => trivial, .store .refl ?_ .refl⟩
    intro a v hstore
    cases hstore
    exact ⟨by decide, by decide⟩
  | succ n => exact ⟨(), .refl, fun _ _ => trivial, .quiet .refl⟩

theorem afterReset_inReset : inReset.AfterReset := ⟨inReset.core, 0, rfl⟩

/-- The threshold is stored while the core leaves its reset, and the board can do the same. -/
theorem hardware_reaches_oneStore : ∃ c, (after Fabric.clock inReset oneStore 4).Agrees c ∧
    cpuMachine.Reachable meddler (boot .trading fun _ _ => True) (c, ()) :=
  hardware_reaches .trading meddler_onlyShared inReset oneStore (fun _ => ()) afterReset_inReset
    (Strategy.loaded_install _ _) trivial apart_oneStore records_oneStore 4

/-- The core and the simulator on `Trading_FSM`, beside that host: the first three clocks execute
the first instruction. -/
theorem core_refines_cpu_oneStore : ∃ c : ℕ → Cpu, c 0 = inReset.initial ∧
    (∀ n, (c n).Advances (oneStore n) (c (n + 1))) ∧
    (∀ n, (after Fabric.clock inReset oneStore n).Agrees (c n)) ∧
    (after Fabric.clock inReset oneStore 3).core.fsm.state = .S0 ∧ (c 3).instructions = 1 := by
  have hproper : inReset.Proper oneStore :=
    Fabric.proper_of_records (s := .trading) (fun _ _ => True) (fun _ => ()) meddler_onlyShared
      afterReset_inReset (Strategy.loaded_install _ _) trivial apart_oneStore records_oneStore
  obtain ⟨c, hstart, hadvances, hagrees, hthree⟩ :=
    core_refines_cpu inReset oneStore afterReset_inReset hproper
  obtain ⟨-, -, hstate, hcount⟩ := hthree 0 rfl (by decide +kernel)
  refine ⟨c, hstart, hadvances, hagrees, hstate, ?_⟩
  rw [hcount, hstart]
  rfl

end Fmma
