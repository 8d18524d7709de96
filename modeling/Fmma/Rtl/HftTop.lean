import Fmma.Rtl.OnBoard
import Mathlib.Tactic.Common

/-!
# The top level

`HFTtop.v`: the core on its port of the shared RAM, the reset it gets from `reset_ctrl`, and the
digit that shows where the PC is. The button is sampled once a clock, and the HPS writes through the
other port of the RAM. A word that both ports write at one edge holds anything afterwards.
-/

namespace Fmma

open Clocked (after)

/-! ### The reset -/

/-- The registers of `reset_ctrl`: the synchroniser of the button, and the power-on counter. -/
structure ResetCtrl where
  keySync : BitVec 2
  porCnt : BitVec 5

namespace ResetCtrl

/-- The registers as the device is configured. -/
def powerUp : ResetCtrl := ⟨0b11, 0⟩

/-- A positive edge of `clk`. -/
def edge (r : ResetCtrl) (keyN : Bool) : ResetCtrl where
  keySync := BitVec.ofBool (r.keySync.getLsbD 0) ++ BitVec.ofBool keyN
  porCnt :=
    if !r.keySync.getLsbD 1 then 0
    else if !r.porCnt.getLsbD 4 then r.porCnt + 1
    else r.porCnt

/-- `active`, which is `rst_high`; `rst_low_n` is its complement. -/
def active (r : ResetCtrl) : Bool := !r.porCnt.getLsbD 4 || !r.keySync.getLsbD 1

variable {key : ℕ → Bool} {n : ℕ}

/-- What the synchroniser holds after `n` edges: the samples of the last two. -/
structure Synced (key : ℕ → Bool) (n : ℕ) (r : ResetCtrl) : Prop where
  first : r.keySync.getLsbD 0 = false ↔ ∃ i, key i = false ∧ i + 1 = n
  second : r.keySync.getLsbD 1 = false ↔ ∃ i, key i = false ∧ i + 2 = n

/-- The counter has come to `m` when that many edges have passed, since power-up and since the
synchroniser last showed the button down. -/
structure Counted (key : ℕ → Bool) (n : ℕ) (r : ResetCtrl) : Prop where
  le : r.porCnt.toNat ≤ 16
  iff : ∀ m ≤ 16, m ≤ r.porCnt.toNat ↔
    m ≤ n ∧ ∀ i, key i = false → i + 3 ≤ n → i + 3 + m ≤ n

/-- The two bits of the synchroniser. -/
theorem getLsbD_ofBool_append : ∀ a b : Bool,
    (BitVec.ofBool a ++ BitVec.ofBool b).getLsbD 0 = b ∧
      (BitVec.ofBool a ++ BitVec.ofBool b).getLsbD 1 = a := by decide

theorem synced (key : ℕ → Bool) (n : ℕ) : Synced key n (after edge powerUp key n) := by
  refine Clocked.invariant (I := Synced key) ⟨?_, ?_⟩ (fun n r h => ⟨?_, ?_⟩) n
  · exact iff_of_false Bool.noConfusion fun ⟨i, _, hi⟩ => Nat.succ_ne_zero i hi
  · exact iff_of_false Bool.noConfusion fun ⟨i, _, hi⟩ => Nat.succ_ne_zero (i + 1) hi
  · have hbit : (r.edge (key n)).keySync.getLsbD 0 = key n := (getLsbD_ofBool_append _ _).1
    rw [hbit]
    constructor
    · exact fun hk => ⟨n, hk, rfl⟩
    · rintro ⟨i, hk, hi⟩
      rwa [← Nat.succ_injective hi]
  · have hbit : (r.edge (key n)).keySync.getLsbD 1 = r.keySync.getLsbD 0 :=
      (getLsbD_ofBool_append _ _).2
    rw [hbit, h.first]
    exact exists_congr fun i => and_congr_right fun _ => by omega

/-- The counter has stopped when its top bit is set. -/
theorem Counted.full {r : ResetCtrl} (h : Counted key n r) :
    r.porCnt.getLsbD 4 = true ↔ 16 ≤ r.porCnt.toNat := by
  have hle := h.le
  rw [← BitVec.testBit_toNat, Nat.testBit_eq_decide_div_mod_eq, decide_eq_true_eq]
  omega

theorem Counted.edge {r : ResetCtrl} (h : Counted key n r) (hs : Synced key n r) :
    Counted key (n + 1) (r.edge (key n)) := by
  have hle := h.le
  have hedge : (r.edge (key n)).porCnt =
      if !r.keySync.getLsbD 1 then 0 else if !r.porCnt.getLsbD 4 then r.porCnt + 1 else r.porCnt :=
    rfl
  by_cases hdown : r.keySync.getLsbD 1 = false
  · -- the button is down, and the counter is cleared
    have hzero : (r.edge (key n)).porCnt.toNat = 0 := by
      rw [hedge, hdown]
      rfl
    obtain ⟨i, hi, hn⟩ := hs.second.mp hdown
    refine ⟨by omega, fun m hm => ?_⟩
    rw [hzero]
    constructor
    · intro hm0
      exact ⟨by omega, fun i _ hin => by omega⟩
    · rintro ⟨-, hall⟩
      have := hall i hi (by omega)
      omega
  · -- the counter goes on, up to 16
    have hup : r.keySync.getLsbD 1 = true := Bool.not_eq_false _ ▸ hdown
    have hcnt : (r.edge (key n)).porCnt.toNat = min 16 (r.porCnt.toNat + 1) := by
      rw [hedge, hup]
      by_cases hfull : r.porCnt.getLsbD 4 = true
      · have hnat := h.full.mp hfull
        have hkeep : (if !true then 0 else if !r.porCnt.getLsbD 4 then r.porCnt + 1 else r.porCnt) =
            r.porCnt := by rw [hfull]; rfl
        rw [hkeep]
        omega
      · have hnat : ¬16 ≤ r.porCnt.toNat := fun hge => hfull (h.full.mpr hge)
        have hnext : (if !true then 0 else if !r.porCnt.getLsbD 4 then r.porCnt + 1 else r.porCnt) =
            r.porCnt + 1 := by rw [Bool.eq_false_iff.mpr hfull]; rfl
        have hone : (1 : BitVec 5).toNat = 1 := rfl
        rw [hnext, BitVec.toNat_add, hone]
        omega
    refine ⟨by omega, fun m hm => ?_⟩
    have hlast : ∀ i, key i = false → i + 2 ≠ n := fun i hi hn => hdown (hs.second.mpr ⟨i, hi, hn⟩)
    rw [hcnt]
    cases m with
    | zero => exact iff_of_true (Nat.zero_le _) ⟨Nat.zero_le _, fun i _ hin => hin⟩
    | succ m =>
      have hprev := h.iff m (by omega)
      constructor
      · intro hlt
        obtain ⟨hmn, hall⟩ := hprev.mp (by omega)
        refine ⟨by omega, fun i hi hin => ?_⟩
        have hne := hlast i hi
        have := hall i hi (by omega)
        omega
      · rintro ⟨hmn, hall⟩
        have : m ≤ r.porCnt.toNat := hprev.mpr ⟨by omega, fun i hi hin => by
          have := hall i hi (by omega)
          omega⟩
        omega

theorem counted (key : ℕ → Bool) (n : ℕ) : Counted key n (after edge powerUp key n) := by
  induction n with
  | zero => exact ⟨Nat.zero_le _, fun m _ => ⟨fun h => ⟨h, fun i _ hi => by omega⟩, fun h => h.1⟩⟩
  | succ n ih => exact ih.edge (synced key n)

end ResetCtrl

/-- **When the CPU is in reset**: in the first sixteen clocks after power-up, and from two to
eighteen clocks after any sample that finds the button down. -/
theorem reset_window (key : ℕ → Bool) (n : ℕ) :
    (after ResetCtrl.edge .powerUp key n).active = true ↔
      n < 16 ∨ ∃ i, key i = false ∧ i + 2 ≤ n ∧ n ≤ i + 18 := by
  have hcounted := ResetCtrl.counted key n
  have hsynced := ResetCtrl.synced key n
  set r := after ResetCtrl.edge .powerUp key n
  have hfull : r.porCnt.getLsbD 4 = false ↔ ¬16 ≤ r.porCnt.toNat := by
    rw [← hcounted.full, Bool.not_eq_true]
  rw [ResetCtrl.active, Bool.or_eq_true, Bool.not_eq_true', Bool.not_eq_true', hfull,
    hcounted.iff 16 le_rfl, hsynced.second]
  constructor
  · rintro (hnot | ⟨i, hi, hn⟩)
    · by_cases hn : n < 16
      · exact .inl hn
      · -- the counter has been cleared since
        obtain ⟨i, hi⟩ := not_forall.mp fun hall => hnot ⟨by omega, hall⟩
        rw [Classical.not_imp, Classical.not_imp] at hi
        exact .inr ⟨i, hi.1, by omega, by omega⟩
    · exact .inr ⟨i, hi, by omega, by omega⟩
  · rintro (hn | ⟨i, hi, hlo, hhi⟩)
    · exact .inl fun h => by omega
    · by_cases heq : i + 2 = n
      · exact .inr ⟨i, hi, heq⟩
      · exact .inl fun h => by
          have := h.2 i hi (by omega)
          omega

/-! ### The display -/

/-- `decoder`: the segments of a hexadecimal digit, lit where they are 0. -/
def decoder (digit : BitVec 4) : BitVec 7 :=
  [0b1000000, 0b1111001, 0b0100100, 0b0110000, 0b0011001, 0b0010010, 0b0000010, 0b1111000,
    0b0000000, 0b0011000, 0b0001000, 0b0000011, 0b1000110, 0b0100001, 0b0000110,
    0b0001110].getD digit.toNat 0b1111111

/-- The display tells the digits apart. -/
theorem decoder_injective : Function.Injective decoder := by
  have hall : ∀ a b, decoder a = decoder b → a = b := by decide
  exact fun a b => hall a b

/-! ### The chip -/

/-- Both ports write one word. -/
def Fabric.clashes (f : Fabric) (host : HostWrite) : Bool :=
  f.core.memWrite && host.any fun w => w.1 == f.core.memAddr

/-- A clock of the core, in reset or not, and of the RAM. -/
def Fabric.cycle (f : Fabric) (rst : Bool) (host : HostWrite) (left : Word) : Fabric where
  core := f.core.edge rst (f.ram f.core.memAddr)
  ram :=
    if f.clashes host then Function.update (f.clock host).ram f.core.memAddr left
    else (f.clock host).ram

/-- What comes to the chip in a clock, and what is left in a word that both ports write in it. -/
structure HftIn where
  keyN : Bool
  host : HostWrite
  left : Word

/-- `HFTTop`. -/
structure HftTop where
  reset : ResetCtrl
  fabric : Fabric

namespace HftTop

/-- A clock: `reset_ctrl` and the RAM move at its rising edge, the core at the falling one. -/
def clock (t : HftTop) (i : HftIn) : HftTop where
  reset := t.reset.edge i.keyN
  fabric := t.fabric.cycle (t.reset.edge i.keyN).active i.host i.left

/-- `HEX0`: the low digit of the PC. -/
def hex0 (t : HftTop) : BitVec 7 := decoder (t.fabric.core.pc.setWidth 4)

end HftTop

/-! ### Containment -/

namespace Fabric

variable {f : Fabric} {s : Strategy} {host : HostWrite} {left : Word}

/-- The core runs the strategy, and is not parked. -/
structure Contained (f : Fabric) (s : Strategy) : Prop where
  awake : f.core.fsm.state ≠ .hlt
  runs : ∃ c, f.Phase ∧ f.Agrees c ∧ s.Runs c

/-- What the core writes, it may write. -/
theorem Contained.stores (h : f.Contained s) (hwrite : f.core.memWrite = true) :
    Strategy.Stores f.core.memAddr f.core.memWdata := by
  obtain ⟨-, c, hphase, hagrees, hruns⟩ := h
  have haccess : f.access = some (.store f.core.memAddr f.core.memWdata) := if_pos hwrite
  cases hact : f.acts with
  | false =>
    rw [hphase.access_of_waits hact] at haccess
    cases haccess
  | true =>
    have hready := hphase.ready_of_acts hact (hagrees.word_ne_zero hruns)
    rw [hready.decoding.access, hagrees.core, ← hagrees.current] at haccess
    exact hruns.stores haccess

/-- The image is in the RAM. -/
theorem Contained.loaded (h : f.Contained s) : s.Loaded f.ram := by
  obtain ⟨-, c, -, hagrees, hruns⟩ := h
  exact hagrees.ram ▸ hruns.loaded

/-- The host writes into the input block. -/
def Inputs (host : HostWrite) : Prop := ∀ a v, host = some (a, v) → inputBase ≤ a ∧ a < outputBase

/-- The word of a clash. -/
theorem clashes_iff : f.clashes host = true ↔
    f.core.memWrite = true ∧ ∃ v, host = some (f.core.memAddr, v) := by
  rw [clashes, Bool.and_eq_true]
  refine and_congr_right fun _ => ?_
  cases host with
  | none =>
    refine iff_of_false Bool.noConfusion ?_
    rintro ⟨v, hv⟩
    cases hv
  | some w =>
    obtain ⟨a, v⟩ := w
    rw [Option.any_some, beq_iff_eq]
    constructor
    · rintro rfl
      exact ⟨v, rfl⟩
    · rintro ⟨u, hu⟩
      cases hu
      rfl

/-- Without a clash the two sides are apart. -/
theorem apart_of_not_clashes (h : f.clashes host = false) : f.Apart host := by
  rintro a v ha hwrite rfl
  rw [clashes_iff.mpr ⟨hwrite, v, ha⟩] at h
  cases h

/-- A clash is no matter to the RAM but for its word, so that the host may as well have written
nothing. -/
theorem clock_of_clashes (h : f.clashes host = true) : f.clock host = f.clock none := by
  obtain ⟨hwrite, v, rfl⟩ := clashes_iff.mp h
  have hram : Function.update (HostWrite.apply (some (f.core.memAddr, v)) f.ram) f.core.memAddr
      f.core.memWdata = Function.update f.ram f.core.memAddr f.core.memWdata :=
    Function.update_idem ..
  simp only [clock, hwrite, if_true, hram]
  rfl

/-- The RAM after a clock has the image. -/
theorem loaded_cycle (hloaded : s.Loaded f.ram) {rst : Bool}
    (hstores : f.core.memWrite = true → Strategy.Stores f.core.memAddr f.core.memWdata)
    (hhost : Inputs host) : s.Loaded (f.cycle rst host left).ram := by
  have hafter : s.Loaded (host.apply f.ram) := by
    cases host with
    | none => exact hloaded
    | some x => exact hloaded.update (hhost x.1 x.2 rfl).1 x.2
  have hclock : s.Loaded (f.clock host).ram := by
    rw [clock]
    dsimp only
    split_ifs with hwrite
    · refine hafter.update ?_ _
      rcases hstores hwrite with ⟨hle, -⟩ | ⟨heq, -⟩
      · exact BitVec.le_trans (by decide) hle
      · rw [heq]
        decide
    · exact hafter
  rw [cycle]
  dsimp only
  split_ifs with hclash
  · obtain ⟨-, v, ha⟩ := clashes_iff.mp hclash
    exact hclock.update (hhost f.core.memAddr v ha).1 left
  · exact hclock

/-- A core in reset is at `PROGRAM_BASE`, and runs the image. -/
theorem contained_reset (hloaded : s.Loaded (f.cycle true host left).ram) :
    (f.cycle true host left).Contained s ∧ (f.cycle true host left).core.pc = 8 ∧
      (f.cycle true host left).core.memWrite = false := by
  have hfsm : (f.cycle true host left).core.fsm = Fsm.idle .S0 := rfl
  refine ⟨⟨?_, (f.cycle true host left).initial, ?_, ⟨rfl, rfl⟩, ?_⟩, rfl, rfl⟩
  · rw [hfsm]
    exact FsmState.noConfusion
  · exact .fetching ⟨quiet_of_idle hfsm, congrArg Fsm.state hfsm⟩
  · exact .of_programBase hloaded rfl

/-- **One clock**, without a clash. -/
theorem Contained.clock (h : f.Contained s) (hhost : Inputs host) (hapart : f.Apart host) :
    (f.clock host).Contained s := by
  obtain ⟨hawake, c, hphase, hagrees, hruns⟩ := h
  have hzero := hagrees.word_ne_zero hruns
  have hallows := hagrees.allows hruns hapart fun a v ha => (hhost a v ha).1
  have hsupported : (decode f.word).Supported := hagrees.current ▸ hruns.supported
  obtain ⟨hphase', hagrees'⟩ := hphase.step hagrees hallows fun _ => hsupported
  refine ⟨?_, _, hphase', hagrees', ?_⟩
  · cases hphase with
    | fetching hfetch =>
      rw [congrArg Fsm.state (hfetch.clock host).2.2]
      exact FsmState.noConfusion
    | decoding hdecode =>
      have hready := ready_clock hdecode hallows hsupported hzero
      refine (hready.decoding.executes ?_ hready.supported.ne_undefined).2.2
      exact fun hd => hready.nonzero (decode_eq_halt_iff.mp hd)
    | halted hquiet hstate => exact absurd hstate hawake
    | ready hready =>
      rw [hready.clock.state]
      exact FsmState.noConfusion
  · have hwrite : ∀ {d : Cpu}, s.Runs d → s.Runs (d.hostWrite host) := by
      intro d hd
      cases host with
      | none => exact hd
      | some x =>
        exact hd.write (Strategy.not_inImage_of_inputBase_le (hhost x.1 x.2 rfl).1) x.2
    rw [follow]
    split_ifs
    · exact hwrite (hruns.step (Cpu.steps_next hruns.executes.2))
    · exact hwrite hruns

/-- A core that fetches runs on when a shared word changes. -/
theorem Contained.update (h : f.Contained s) (hstate : f.core.fsm.state = .S0) {a : Addr}
    (ha : inputBase ≤ a) (v : Word) :
    Contained { f with ram := Function.update f.ram a v } s := by
  obtain ⟨hawake, c, hphase, hagrees, hruns⟩ := h
  obtain ⟨hwe, hls, hpcEn, hrEn, hfrEn⟩ := (hphase.fetching_of_state hstate).quiet
  refine ⟨hawake, c.write a v, .fetching ⟨⟨hwe, hls, hpcEn, hrEn, hfrEn⟩, hstate⟩,
    ⟨hagrees.core, ?_⟩, hruns.write (Strategy.not_inImage_of_inputBase_le ha) v⟩
  exact congrArg (Function.update · a v) hagrees.ram

/-- A core that stores fetches next. -/
theorem Contained.state_clock (h : f.Contained s) (hwrite : f.core.memWrite = true) :
    (f.clock host).core.fsm.state = .S0 := by
  obtain ⟨-, c, hphase, hagrees, hruns⟩ := h
  have haccess : f.access = some (.store f.core.memAddr f.core.memWdata) := if_pos hwrite
  cases hact : f.acts with
  | false =>
    rw [hphase.access_of_waits hact] at haccess
    cases haccess
  | true => exact (hphase.ready_of_acts hact (hagrees.word_ne_zero hruns)).clock.state

/-- **One clock**, whatever a clash leaves. -/
theorem Contained.cycle (h : f.Contained s) (hhost : Inputs host) :
    (f.cycle false host left).Contained s := by
  cases hclash : f.clashes host with
  | false =>
    have hcycle : f.cycle false host left = f.clock host := by
      rw [Fabric.cycle, hclash]
      rfl
    rw [hcycle]
    exact h.clock hhost (apart_of_not_clashes hclash)
  | true =>
    obtain ⟨hwrite, v, ha⟩ := clashes_iff.mp hclash
    have hcycle : f.cycle false host left =
        { f.clock none with ram := Function.update (f.clock none).ram f.core.memAddr left } := by
      rw [Fabric.cycle, hclash, clock_of_clashes hclash]
      rfl
    have hnone : (f.clock none).Contained s := by
      refine h.clock ?_ (apart_none f)
      rintro a w ⟨⟩
    rw [hcycle]
    exact hnone.update (h.state_clock hwrite) (hhost f.core.memAddr v ha).1 left

end Fabric

namespace HftTop

variable {t : HftTop} {i : HftIn} {s : Strategy}

/-- The chip as it is from the reset on. -/
structure Inv (t : HftTop) (s : Strategy) : Prop where
  contained : t.fabric.Contained s
  /-- In reset the core waits at `PROGRAM_BASE`. -/
  held : t.reset.active = true → t.fabric.core.pc = 8 ∧ t.fabric.core.memWrite = false

/-- A clock that leaves the core in reset. -/
theorem inv_of_active (hactive : (t.clock i).reset.active = true)
    (hloaded : s.Loaded (t.clock i).fabric.ram) : (t.clock i).Inv s := by
  have hfabric : (t.clock i).fabric = t.fabric.cycle true i.host i.left := by
    rw [← hactive]
    rfl
  obtain ⟨hcontained, hheld⟩ := Fabric.contained_reset (hfabric ▸ hloaded)
  refine ⟨?_, fun _ => ?_⟩
  · rw [hfabric]
    exact hcontained
  · rw [hfabric]
    exact hheld

/-- **One clock of the chip**, whatever the button does. -/
theorem Inv.clock (h : t.Inv s) (hhost : Fabric.Inputs i.host) : (t.clock i).Inv s := by
  cases hactive : (t.clock i).reset.active with
  | true =>
    refine inv_of_active hactive ?_
    exact Fabric.loaded_cycle h.contained.loaded h.contained.stores hhost
  | false =>
    have hfabric : (t.clock i).fabric = t.fabric.cycle false i.host i.left := by
      rw [← hactive]
      rfl
    refine ⟨?_, fun hidle => ?_⟩
    · rw [hfabric]
      exact h.contained.cycle hhost
    · rw [hactive] at hidle
      cases hidle

end HftTop

/-- **Containment on the chip.** From a clock on that leaves the CPU in reset, with an image in the
RAM, whatever the button does, whatever the HPS writes into the input block and whatever is left of
a word that both sides write at one edge: the PC is in the image, the image is as it was written,
the CPU is never parked, and all it writes are the words `HEARTBEAT..QUOTE_ASK` and a zero in
`CFG_RESTART`. In reset it is at `PROGRAM_BASE`, writes nothing, and the display shows an 8. -/
theorem hft_containment (s : Strategy) (t : HftTop) (inp : ℕ → HftIn)
    (hreset : (t.clock (inp 0)).reset.active = true)
    (hloaded : s.Loaded (t.clock (inp 0)).fabric.ram)
    (hhost : ∀ n, Fabric.Inputs (inp (n + 1)).host) (n : ℕ) :
    let u := after HftTop.clock t inp (n + 1)
    s.InImage u.fabric.core.pc ∧ s.Loaded u.fabric.ram ∧ u.fabric.core.fsm.state ≠ .hlt ∧
      (u.fabric.core.memWrite = true →
        (heartbeat ≤ u.fabric.core.memAddr ∧ u.fabric.core.memAddr ≤ quoteAsk) ∨
          (u.fabric.core.memAddr = cfgRestart ∧ u.fabric.core.memWdata = 0)) ∧
      (u.reset.active = true → u.fabric.core.pc = 8 ∧ u.fabric.core.memWrite = false ∧
        u.hex0 = decoder 8) := by
  have hrun : (after HftTop.clock t inp (n + 1)).Inv s := by
    induction n with
    | zero => exact HftTop.inv_of_active hreset hloaded
    | succ n ih => exact ih.clock (hhost n)
  obtain ⟨hcontained, hheld⟩ := hrun
  intro u
  refine ⟨?_, hcontained.loaded, hcontained.awake, hcontained.stores, fun hactive => ?_⟩
  · obtain ⟨-, c, -, hagrees, hruns⟩ := hcontained
    have hpc : u.fabric.core.pc = c.pc := congrArg Core.pc hagrees.core
    rw [hpc]
    exact hruns.inImage
  · obtain ⟨hpc, hwrite⟩ := hheld hactive
    refine ⟨hpc, hwrite, ?_⟩
    rw [HftTop.hex0, hpc]
    rfl

/-- The chip as it is configured, with the image in the RAM: the button is pressed in the fourth
clock, and the HPS stores a threshold in the first. After sixty clocks the CPU has left its
reset. -/
theorem hft_containment_powerUp :
    let u := after HftTop.clock ⟨.powerUp, inReset⟩ (fun k => ⟨k != 3, oneStore k, 0⟩) (59 + 1)
    u.reset.active = false ∧ Strategy.InImage .trading u.fabric.core.pc ∧
      Strategy.Loaded .trading u.fabric.ram ∧ u.fabric.core.fsm.state ≠ .hlt ∧
      (u.fabric.core.memWrite = true →
        (heartbeat ≤ u.fabric.core.memAddr ∧ u.fabric.core.memAddr ≤ quoteAsk) ∨
          (u.fabric.core.memAddr = cfgRestart ∧ u.fabric.core.memWdata = 0)) := by
  have hloaded : Strategy.Loaded .trading inReset.ram := Strategy.loaded_install _ _
  have hinputs : ∀ k, Fabric.Inputs (oneStore k) := by
    rintro (_ | k) a v ha
    · cases ha
      exact ⟨by decide, by decide⟩
    · cases ha
  obtain ⟨hpc, hram, hawake, hstores, -⟩ := hft_containment .trading ⟨.powerUp, inReset⟩
    (fun k => ⟨k != 3, oneStore k, 0⟩) (by decide)
    (Fabric.loaded_cycle hloaded Bool.noConfusion (hinputs 0)) (fun n => hinputs (n + 1)) 59
  exact ⟨by decide +kernel, hpc, hram, hawake, hstores⟩

end Fmma
