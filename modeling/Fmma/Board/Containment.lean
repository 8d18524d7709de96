import Fmma.Board
import Fmma.Strategy.Runs

/-!
# What a program can reach

Whatever a host stores into the input block, and whenever it resets the CPU, a program stays
inside its image, does not change it, and stores into the ten words of the output block. The one
exception is the acknowledgement of a restart request.
-/

namespace Fmma

/-- A host that stores anything into the input block and resets the CPU at any time. -/
def meddler : Host Unit where
  act _ _ x _ := ∀ a v, x = some (.store a v) → inputBase ≤ a ∧ a < outputBase
  observe h _ _ _ := h
  reset _ _ := True

theorem meddler_onlyShared : Host.OnlyShared meddler :=
  fun _ _ _ _ hx a v heq => (hx a v heq).1

/-- A step of the CPU, or of a host that stores into the shared blocks only, leaves the CPU running
the strategy. -/
theorem runs_of_step {η : Type*} {E : Host η} (hE : E.OnlyShared) {s : Strategy} {a b : Cpu × η}
    (ha : s.Runs a.1) (hab : cpuMachine.Step E a b) : s.Runs b.1 := by
  cases hab with
  | internal hs he => exact ha.step hs
  | access hs he hp => exact ha.step hs
  | @act c h h' x hx =>
    cases x with
    | none => exact ha
    | some x =>
      cases x with
      | load d => exact ha
      | store d v =>
        exact ha.write (Strategy.not_inImage_of_inputBase_le (hE _ _ _ _ hx d v rfl)) v
  | reset hr hh =>
    cases hr
    exact .of_programBase ha.loaded rfl

/-- **Containment.** From `PROGRAM_BASE`, with any registers, flags and RAM around the image, in
any interleaving with stores to the input block and with resets: the PC is in the image, the image
is as it was assembled, the word at the PC is one of it that is executed, and a store of it goes to
one of `HEARTBEAT..QUOTE_ASK` or clears `CFG_RESTART`. -/
theorem containment (s : Strategy) {c : Cpu} {h : Unit}
    (hr : cpuMachine.Reachable meddler (boot s fun _ _ => True) (c, h)) :
    (8 ≤ c.pc.toNat ∧ c.pc.toNat < 8 + s.image.length) ∧ s.Loaded c.mem ∧
      s.image[c.pc.toNat - 8]? = some (c.mem c.pc) ∧
      (c.current ≠ .halt ∧ c.current ≠ .undefined) ∧
      ∀ a v, c.toCore.access c.current = some (.store a v) →
        (heartbeat ≤ a ∧ a ≤ quoteAsk) ∨ (a = cfgRestart ∧ v = 0) := by
  have hruns : s.Runs c := hr.invariant (I := fun a => s.Runs a.1)
    (fun a ha => .of_programBase ha.2.1 ha.1) fun _ _ => runs_of_step meddler_onlyShared
  obtain ⟨hlo, hhi⟩ := hruns.inImage
  refine ⟨⟨hlo, hhi⟩, hruns.loaded, ?_, hruns.executes, fun a v => hruns.stores⟩
  have hi : c.pc.toNat - 8 < s.image.length := by omega
  have hword := hruns.loaded (c.pc.toNat - 8) hi
  rw [Nat.add_sub_cancel' hlo, BitVec.ofNat_toNat, BitVec.setWidth_eq] at hword
  rw [List.getElem?_eq_getElem hi, hword]

/-- A script for the meddler: stores into the input block. -/
def meddlerDirector (s : Strategy) : Director s meddler.withoutReset (Addr × Word) where
  perform k h _ :=
    if inputBase ≤ k.1 ∧ k.1 < outputBase then some (some (.store k.1 k.2), h) else none
  ok _ := true
  perform_act {k h m x h'} hk := by
    split_ifs at hk with hin
    cases hk
    rintro a v heq
    cases heq
    exact hin
  ok_permitted _ _ _ := trivial

/-- `trading.asm` is asked to restart: it executes the word that clears the request. -/
theorem containment_restart : ∃ c : Cpu, c.pc = 155 ∧
    Strategy.trading.image[155 - 8]? = some (c.mem c.pc) ∧ c.current ≠ .halt := by
  obtain ⟨t, c, h, hr, hcorr, hP⟩ := (meddlerDirector .trading).exists_reachable
    meddler_onlyShared (fun _ _ h => h) (fun _ _ => True) (m := fun _ => 0) (h := ()) trivial
    [.cpu 12, .host (cfgRestart, 1), .cpu 2] (P := fun a => a.1.1.point = .clearRestart)
    (by decide +kernel)
  have hpoint : t.point = .clearRestart := of_decide_eq_true hP
  have hpc : c.pc = 155 := by
    rw [hcorr.pc, hpoint]
    rfl
  obtain ⟨-, -, hword, hexec, -⟩ := containment .trading
    (hr.mono fun _ _ => Machine.Step.of_withoutReset)
  rw [hpc] at hword
  exact ⟨c, hpc, hpc.symm ▸ hword, hexec.1⟩

end Fmma
