import Fmma.Board.Fills

/-!
# What a restart does to the inventory

`INIT` adopts `CFG_POSITION`, which the driver stores once, in `fmma_fpga_push_config`, and takes
`FILL_SEQ` as it finds it. The fills reported up to then are in neither: after a restart the
inventory is the start position again, and only the fills reported since move it. Restarts may
come at any time here, from the reset key and through `CFG_RESTART`.
-/

namespace Fmma

/-- The host as a reporter of fills that waits until the program has read the last one, with
restarts. -/
def restarter (s : Strategy) : Host Reporter :=
  (mailbox s).restrict (fun _ _ _ _ => True) Reporter.Patient

theorem restarter_onlyShared (s : Strategy) : (restarter s).OnlyShared :=
  fun h m x h' hx => mailbox_onlyShared s h m x h' hx.1

/-- The invariants of program and host in every reachable state. -/
theorem restarter_invariant (s : Strategy) {start : Word} {c : Cpu} {h : Reporter}
    (hr : cpuMachine.Reachable (restarter s) (boot s (Reporter.Starts start)) (c, h)) :
    ∃ t, s.Sim t c.toCore ∧ Reporter.Inv s start t c.mem h := by
  obtain ⟨t, hsim, -, hI, -⟩ := board_invariant s (restarter_onlyShared s)
    (I := fun t m h => Reporter.Inv s start t m h ∧ h.Waited)
    (fun r m h hs => ⟨hs.inv, fun hne => absurd hs.2.2.2.1 hne⟩)
    (fun t m h hI hnone => ⟨hI.1.internal hnone, hI.2⟩)
    (fun t m h x hI hx _ => ⟨hI.1.access hx, hI.2.access hI.1.body hx⟩)
    (fun t m h x h' hI hx =>
      ⟨hI.1.act hx.1 (hI.2.undisturbed hx.1), hI.2.act hx.1 hx.2⟩)
    (fun t m h h' r hI hreset => by
      cases hreset
      exact ⟨hI.1.reset r, hI.2.reset⟩) hr
  exact ⟨t, hsim, hI⟩

/-- **The inventory after a restart.** When the program reaches `LOOP` from `INIT`, its inventory
is the start position, whatever has been filled: it is the host's position exactly if the fills
reported so far cancel out. Later on, when the host has been quiet for two heartbeats, the fills
reported since `INIT` have been applied, once each, and the ones before are missing. -/
theorem inventory_after_restart (s : Strategy) {start : Word} {c : Cpu} {h : Reporter}
    (hr : cpuMachine.Reachable (restarter s) (boot s (Reporter.Starts start)) (c, h)) :
    (c.pc = s.loopAt → h.fresh = true →
      c.regs 13 = start ∧ c.mem position = start ∧
        (c.regs 13 = start + h.ledger ∧ c.mem position = start + h.ledger ↔ h.ledger = 0)) ∧
    (2 ≤ h.beats →
      c.mem position = start + netOf h.fills ∧
        (c.mem position = start + h.ledger ↔ netOf h.dropped = 0)) := by
  obtain ⟨t, hsim, hI⟩ := restarter_invariant s hr
  refine ⟨fun hpc hfresh => ?_, fun hbeats => ?_⟩
  · have hposition := hsim.position
    have hcorr := hsim.corr (hpc ▸ by cases s <;> decide)
    have hplace := hcorr.place_eq (p := .loop) (by cases s <;> trivial)
      (hpc.trans (by cases s <;> rfl))
    have hearly := hI.fresh hfresh
    have hbody := hI.body
    obtain ⟨point, r⟩ := t
    cases point <;> cases hplace
    have happlied : r.position = start := by
      rw [hbody.applied, hearly]
      exact BitVec.add_zero _
    have hshown : c.mem position = start := hbody.shown.trans happlied
    refine ⟨hposition.trans happlied, hshown, ?_⟩
    rw [hposition.trans happlied, hshown, and_self, eq_comm, BitVec.add_right_eq_self]
    rfl
  · have hpos := hI.position_eq hbeats
    refine ⟨hpos, ?_⟩
    rw [hpos, Reporter.ledger, ← BitVec.add_assoc, eq_comm, BitVec.add_right_eq_self]
    rfl

/-! ### Concrete runs -/

/-- Scripts for the reporter, without use of the reset key. -/
def restarterDirector (s : Strategy) : Director s (restarter s).withoutReset ReporterCommand :=
  (mailboxDirector s).restrict (fun _ _ _ _ => True) Reporter.Patient
    (fun _ => true) fun _ _ _ _ => trivial

/-- A script's end is reachable with restarts too. -/
theorem restarterDirector_reachable {s : Strategy} {l : List (Line ReporterCommand)}
    {P : StrategyState Reporter → Bool}
    (hplay : ((restarterDirector s).play l
      ((s.cold, s.install fun _ => 0), Reporter.cold)).any P = true) :
    ∃ t c h, cpuMachine.Reachable (restarter s) (boot s (Reporter.Starts 0)) (c, h) ∧
      s.Corr t c.toCore ∧ P ((t, c.mem), h) = true := by
  obtain ⟨t, c, h, hr, hcorr, hP⟩ := (restarterDirector s).exists_reachable
    (restarter_onlyShared s) (fun _ _ h => h) (Reporter.Starts 0) (Reporter.starts_cold s) l hplay
  exact ⟨t, c, h, hr.mono fun _ _ => Machine.Step.of_withoutReset, hcorr, hP⟩

/-- One lot is bought and sold again, then the CPU is restarted. -/
theorem inventory_after_restart_flat : ∃ (c : Cpu) (h : Reporter),
    h.dropped = [⟨fillSold, 1⟩, ⟨fillBought, 1⟩] ∧ c.regs 13 = 0 + h.ledger := by
  obtain ⟨t, c, h, hr, hcorr, hP⟩ := restarterDirector_reachable (s := .trading)
    (l := [.cpu 12, .host (.report ⟨fillBought, 1⟩), .host .store, .host .store, .host .store,
      .cpu 20, .host (.report ⟨fillSold, 1⟩), .host .store, .host .store, .host .store,
      .cpu 20, .host (.poke cfgRestart 1), .cpu 17])
    (P := fun a => a.1.1.point = .loop ∧ a.2.fresh = true ∧ a.2.fills = [] ∧
      a.2.dropped = [⟨fillSold, 1⟩, ⟨fillBought, 1⟩])
    (by decide +kernel)
  obtain ⟨hpoint, hfresh, hfills, hdropped⟩ := of_decide_eq_true hP
  change h.fills = _ at hfills
  change h.dropped = _ at hdropped
  have hpc : c.pc = Strategy.trading.loopAt := by
    rw [hcorr.pc, hpoint]
    rfl
  refine ⟨c, h, hdropped, ((((inventory_after_restart .trading hr).1 hpc hfresh).2.2).mpr ?_).1⟩
  rw [Reporter.ledger, hfills, hdropped]
  rfl

/-- **A forgotten lot.** One lot is bought and applied; after a restart through `CFG_RESTART` the
inventory is zero. -/
theorem not_inventory_after_restart : ¬∀ (c : Cpu) (h : Reporter),
    cpuMachine.Reachable (restarter .trading) (boot .trading (Reporter.Starts 0)) (c, h) →
      c.pc = Strategy.trading.loopAt → h.fresh = true → c.mem position = 0 + h.ledger := by
  intro hall
  obtain ⟨t, c, h, hr, hcorr, hP⟩ := restarterDirector_reachable (s := .trading)
    (l := [.cpu 12, .host (.report ⟨fillBought, 1⟩), .host .store, .host .store, .host .store,
      .cpu 20, .host (.poke cfgRestart 1), .cpu 13])
    (P := fun a => a.1.1.point = .loop ∧ a.2.fresh = true ∧ a.2.fills = [] ∧
      a.2.dropped = [⟨fillBought, 1⟩] ∧ a.1.2 position = 0)
    (by decide +kernel)
  obtain ⟨hpoint, hfresh, hfills, hdropped, hzero⟩ := of_decide_eq_true hP
  change h.fills = _ at hfills
  change h.dropped = _ at hdropped
  change c.mem position = 0 at hzero
  have hpc : c.pc = Strategy.trading.loopAt := by
    rw [hcorr.pc, hpoint]
    rfl
  have hpos := hall c h hr hpc hfresh
  rw [hzero, Reporter.ledger, hfills, hdropped] at hpos
  exact absurd hpos (by decide)

end Fmma
