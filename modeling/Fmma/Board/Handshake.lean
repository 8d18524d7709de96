import Fmma.Board.Startup

/-!
# The handshake on the board

The steps of `fmma_fpga_load` and of the CPU keep the invariant of `Fmma.Board.Startup`, so that a
load that returns 0 has a synchronised counter, and one that returns -1 leaves trading off.
-/

namespace Fmma

/-! ### The stores of the load -/

section Stores

variable {s : Strategy} {w : Addr × Word}

/-- With the request for a restart, these are all the stores of the load. -/
theorem loadStores_append (s : Strategy) (cfg : FpgaConfig) :
    loadStores cfg s.image ++ requestRestart = load cfg s.image := by
  rw [Loading.load_eq s.length_image_le, loadStores, List.append_assoc]

/-- They stay out of the output block, and switch trading off. -/
theorem loadStores_input {cfg : FpgaConfig} (hw : w ∈ loadStores cfg s.image) :
    w.1 < outputBase ∧ (w.1 = cfgEnable → w.2 = 0) := by
  rcases List.mem_append.mp hw with hw | hw
  · simp only [pushConfig, List.mem_append, List.mem_cons, List.not_mem_nil, or_false] at hw
    rcases hw with (rfl | rfl) | rfl | rfl | rfl | rfl | rfl
    all_goals
      dsimp only
      exact ⟨by decide, by simp⟩
  · have hlen := s.length_image_le
    obtain ⟨himage, -⟩ := Loading.writeProgram_addr hlen hw
    have hlt := himage.2
    refine ⟨BitVec.lt_def.mpr ?_, fun heq => ?_⟩
    · change w.1.toNat < 320
      omega
    · rw [heq] at hlt
      change 263 < _ at hlt
      omega

/-- They store the whole image. -/
theorem loadStores_covered (cfg : FpgaConfig) (m : Addr → Word) :
    s.Covered m (loadStores cfg s.image) := by
  intro p hp
  refine (s.load_covered cfg m p hp).imp_right ?_
  rintro ⟨w, hw, rfl⟩
  rw [← loadStores_append] at hw
  rcases List.mem_append.mp hw with hw | hw
  · exact ⟨w, hw, rfl⟩
  · exact absurd hp (Strategy.not_inImage_of_inputBase_le (Loading.load_shared cfg (.inr hw)).1)

/-- The entry word stays the last one when stores are left out at the end. -/
theorem Strategy.EntryLast.of_append {l l' : List (Addr × Word)} (hl : s.EntryLast (l ++ l')) :
    s.EntryLast l := by
  induction l with
  | nil => trivial
  | cons w l ih => exact ⟨fun heq u hu => hl.1 heq u (List.mem_append_left _ hu), ih hl.2⟩

theorem loadStores_entryLast (cfg : FpgaConfig) : s.EntryLast (loadStores cfg s.image) := by
  have hall := s.load_entryLast cfg
  rw [← loadStores_append] at hall
  exact hall.of_append

end Stores

/-! ### The steps of the board -/

namespace Loader

variable {s : Strategy} {c c' : Cpu} {h h' : Loader} {x : Option (Access Addr Word)}

/-- An instruction without an access. -/
theorem Inv.internal (hI : Inv s c h) (hs : c.Steps c')
    (hnone : c.toCore.access c.current = none) : Inv s c' h := by
  obtain ⟨hcpu, hdis, htodo⟩ := hI
  rcases hcpu with ⟨hparked, hparks⟩ | ⟨t, hsim, hl, hc, hp⟩
  · obtain ⟨hcore, hmem, -⟩ := hparked.step hs
    refine ⟨.inl ⟨⟨?_, ?_⟩, hmem.symm ▸ hparks⟩, hmem.symm ▸ hdis, htodo⟩
    · rw [hcore]
      exact hparked.pc
    · rw [hmem]
      exact hparked.word
  · rcases hsim.step hl hs with ⟨-, hmem, hsim'⟩ | ⟨-, hacc, hmem, hsim'⟩
    · rw [← hmem] at hl hc hp hdis
      exact ⟨.inr ⟨t, hsim', hl, hc, hp⟩, hdis, htodo⟩
    · have hquiet : t.access s = none := hacc.symm.trans hnone
      rw [hquiet, Access.applyOpt_none] at hmem
      rw [← hmem] at hl hdis
      refine ⟨.inr ⟨_, hsim', hl, ?_, ?_⟩, hdis, htodo⟩
      · rw [hmem]
        exact Clears.internal hquiet
      · rw [hmem]
        exact hp.internal (hmem ▸ hdis) hquiet

/-- A load or store of the CPU. -/
theorem Inv.access {y : Access Addr Word} (hI : Inv s c h) (hs : c.Steps c')
    (hy : c.toCore.access c.current = some y) : Inv s c' (h.observe s c.pc y) := by
  obtain ⟨hcpu, hdis, htodo⟩ := hI
  rcases hcpu with ⟨hparked, -⟩ | ⟨t, hsim, hl, hc, hp⟩
  · rw [(hparked.step hs).2.2] at hy
    cases hy
  · rcases hsim.step hl hs with ⟨hnone, -⟩ | ⟨hcorr, hacc, hmem, hsim'⟩
    · rw [hnone] at hy
      cases hy
    · have hty : t.access s = some y := hacc.symm.trans hy
      have hl' := hl.applyOpt_access (t := t)
      rw [hty, Access.applyOpt_some] at hmem hl'
      have hstage := (observe_host s h c.pc y).1
      rw [hcorr.pc] at hstage ⊢
      refine ⟨.inr ⟨_, hsim', hmem.symm ▸ hl', ?_, ?_⟩, ?_, fun l hl => htodo l (hstage ▸ hl)⟩
      · rw [hmem]
        exact hc.access hty
      · rw [hmem]
        exact hp.access hc hdis hty
      · rw [hstage, hmem]
        exact hdis.congr (Strategy.apply_input hty (by decide) (by decide))

/-- What the writer's invariant is about. -/
theorem Counts.congr {t : Thread} {m m' : Addr → Word} (hC : h.Counts t m)
    (hrecord : (h'.published, h'.sides, h'.ticks) = (h.published, h.sides, h.ticks))
    (hm : ∀ a ∈ [signal, signalTick, signalSeq, cfgRestart], m' a = m a) : h'.Counts t m' := by
  simp only [Prod.mk.injEq] at hrecord
  obtain ⟨hpub, hsides, hticks⟩ := hrecord
  have hrestart : m' cfgRestart = m cfgRestart := hm _ (by decide)
  refine ⟨fun hr => ?_, ?_, fun v hv => ?_, fun hne => ?_, fun hne => ?_, fun hpos => ?_,
    fun h1 => ?_, fun h1 => ?_⟩
  · rw [hpub, hsides, hticks]
    refine hC.restarting (hr.imp_right fun hr => hr.imp_right fun hr => ⟨hr.1, ?_⟩)
    exact hrestart ▸ hr.2
  · rw [hm _ (by decide), hpub, hC.seq]
  · rw [hpub, hC.next v hv]
  · rw [hm _ (by decide), hsides]
    exact hC.side (hsides ▸ hne)
  · rw [hm _ (by decide), hticks]
    exact hC.tick (hticks ▸ hne)
  · rw [hsides, hticks]
    exact hC.begun (hpub ▸ hpos)
  · rw [hsides]
    exact hC.begunSide h1
  · rw [hticks]
    exact hC.begunTick h1

/-- A step of the host when the image is in place: it stores at most to a shared word, and not to
`SIGNAL_SEQ`. -/
theorem Inv.running (hI : Inv s c h) (hnot : ¬(c.Parked ∧ h.stage.Parks s c.mem))
    (hx : ∀ a v, x = some (.store a v) → inputBase ≤ a ∧ a ≠ signalSeq)
    (hcleared : h'.cleared = h.cleared)
    (hp : ∀ t, h.Progress t c.mem → h'.Progress t (Access.applyOpt c.mem x))
    (hd : h'.stage.Disables (Access.applyOpt c.mem x)) (htodo : ∀ l, h'.stage ≠ .stores l) :
    Inv s { c with mem := Access.applyOpt c.mem x } h' := by
  rcases hI.cpu with hparks | ⟨t, hsim, hl, hc, hpr⟩
  · exact absurd hparks hnot
  · refine ⟨.inr ⟨t, hsim, ?_, fun hpoint => ?_, hp t hpr⟩, hd, fun l hl => absurd hl (htodo l)⟩
    · cases x with
      | none => exact hl
      | some y =>
        cases y with
        | load a => exact hl
        | store a v => exact hl.update (hx a v rfl).1 v
    · rw [hcleared]
      refine ⟨?_, (hc hpoint).2⟩
      cases x with
      | none => exact (hc hpoint).1
      | some y =>
        refine (Access.apply_of_ne fun a v heq => ?_).trans (hc hpoint).1
        exact (hx a v (congrArg some heq)).2.symm

/-- The same for a load. -/
theorem Inv.loading (hI : Inv s c h) (hnot : ¬h.stage.Parks s c.mem)
    (hcleared : h'.cleared = h.cleared) (hp : ∀ t, h.Progress t c.mem → h'.Progress t c.mem)
    (hd : h'.stage.Disables c.mem) (htodo : ∀ l, h'.stage ≠ .stores l) : Inv s c h' :=
  hI.running (x := none) (fun hparks => hnot hparks.2) (by rintro a v ⟨⟩) hcleared hp hd htodo

/-- A store before the load. -/
theorem Inv.earlier (hI : Inv s c h) (hstage : h.stage = .before) {a : Addr} (v : Word)
    (ha : (inputBase ≤ a ∧ a < outputBase) ∨ a = fwVersion) : Inv s (c.write a v) h := by
  obtain ⟨hcpu, -, htodo⟩ := hI
  have hshared : inputBase ≤ a ∧ a ≠ signalSeq := by
    rcases ha with ⟨hle, hlt⟩ | rfl
    · refine ⟨hle, ?_⟩
      rintro rfl
      exact absurd hlt (by decide)
    · exact ⟨by decide, by decide⟩
  refine ⟨?_, by rw [hstage]; trivial, htodo⟩
  rcases hcpu with ⟨hparked, hparks⟩ | ⟨t, hsim, hl, hc, -⟩
  · have hne : programBase ≠ a := by
      rintro rfl
      exact absurd hshared.1 (by decide)
    refine .inl ⟨⟨hparked.pc, ?_⟩, by rw [hstage]; trivial⟩
    exact (Function.update_of_ne hne v c.mem).trans hparked.word
  · have hprogress : h.Progress t (c.write a v).mem := by
      rw [Progress, hstage]
      trivial
    refine .inr ⟨t, hsim, hl.update hshared.1 v, fun hpoint => ⟨?_, (hc hpoint).2⟩, hprogress⟩
    exact (Function.update_of_ne hshared.2.symm v c.mem).trans (hc hpoint).1

/-- A store of the configuration or of the image. -/
theorem Inv.store (hI : Inv s c h) {a : Addr} {v : Word} {rest : List (Addr × Word)}
    (hstage : h.stage = .stores ((a, v) :: rest)) :
    Inv s (c.write a v) { h with stage := .stores rest } := by
  obtain ⟨hcpu, hdis, htodo⟩ := hI
  obtain ⟨hfaithful, hinput⟩ := htodo _ hstage
  rw [hstage] at hcpu hdis
  refine ⟨?_, ⟨fun w hw => hdis.1 w (List.mem_cons_of_mem _ hw), fun hno => ?_⟩, fun l hl => ?_⟩
  · rcases hcpu with ⟨hparked, hcov, hlast⟩ | ⟨t, hsim, hl, hc, -⟩
    · have hcov' := hcov.store hfaithful
      by_cases ha : a = programBase
      · -- the entry word: the image is complete, and the CPU begins it
        refine .inr ⟨_, Strategy.sim_initial s c.toCore hparked.pc,
          hcov'.loaded (hlast.1 ha), ?_, trivial⟩
        rintro ⟨⟩
      · have hword : Function.update c.mem a v programBase = 0 :=
          (Function.update_of_ne (Ne.symm ha) v c.mem).trans hparked.word
        exact .inl ⟨⟨hparked.pc, hword⟩, hcov', hlast.2⟩
    · refine .inr ⟨t, hsim, hl.store hfaithful, fun hpoint => ?_, trivial⟩
      have hlt : a < outputBase := hinput _ List.mem_cons_self
      have hne : signalSeq ≠ a := by
        rintro rfl
        exact absurd hlt (by decide)
      refine ⟨?_, (hc hpoint).2⟩
      exact (Function.update_of_ne hne v c.mem).trans (hc hpoint).1
  · change Function.update c.mem a v cfgEnable = 0
    by_cases ha : a = cfgEnable
    · subst ha
      rw [Function.update_self]
      exact hdis.1 _ List.mem_cons_self rfl
    · rw [Function.update_of_ne (Ne.symm ha)]
      refine hdis.2 fun w hw => ?_
      rcases List.mem_cons.mp hw with rfl | hw
      · exact ha
      · exact hno w hw
  · cases hl
    exact ⟨fun w hw => hfaithful w (List.mem_cons_of_mem _ hw),
      fun w hw => hinput w (List.mem_cons_of_mem _ hw)⟩

/-- The call of `fmma_fpga_load`. -/
theorem Inv.call (hI : Inv s c h) (cfg : FpgaConfig) :
    Inv s c { h with stage := .stores (loadStores cfg s.image) } := by
  have hmem : ∀ w ∈ loadStores cfg s.image, w ∈ load cfg s.image := fun w hw => by
    rw [← loadStores_append]
    exact List.mem_append_left _ hw
  refine ⟨?_, ⟨fun w hw => (loadStores_input hw).2, fun hno => ?_⟩, fun l hl => ?_⟩
  · rcases hI.cpu with ⟨hparked, -⟩ | ⟨t, hsim, hl, hc, -⟩
    · exact .inl ⟨hparked, loadStores_covered cfg c.mem, loadStores_entryLast cfg⟩
    · exact .inr ⟨t, hsim, hl, hc, trivial⟩
  · exact absurd rfl (hno (cfgEnable, 0) List.mem_cons_self)
  · cases hl
    exact ⟨fun w hw => s.load_faithful cfg w (hmem w hw), fun w hw => (loadStores_input hw).1⟩

/-- With all stores made, the CPU is not parked. -/
theorem not_parks_stored (hparked : c.Parked) : ¬LoadStage.Parks s c.mem (.stores []) :=
  fun hparks => Driver.Phase.todo_ne_nil (h := ⟨⟨0, 0, 0⟩, [], false, [], []⟩) hparked hparks.1 rfl

section Host

variable {t : Thread} {m m' : Addr → Word}

/-- What it depends on that the program is settled. -/
theorem Settled.congr (hs : h.Settled t m) (hdecl : h'.declared = h.declared)
    (hm : m' signalSeq = m signalSeq) : h'.Settled t m' :=
  ⟨hdecl.trans hs.declared, hm.trans hs.seq, hs.point⟩

/-- **The wait**: a version that is not 0 was declared by a settled program, and a heartbeat that
has moved leaves no restart but one that is taken at once. -/
theorem Progress.judge {beat0 v : Word} {i : ℕ} (hp : h.Progress t m)
    (hstage : h.stage = .awake beat0 i v) :
    ({ h with stage := .judge beat0 i v (m heartbeat) } : Loader).Progress t m := by
  simp only [Progress, hstage] at hp
  obtain ⟨hversion, hbeat, hloaded⟩ := hp
  simp only [Progress, LoadStage.judge]
  split_ifs with hok
  · obtain ⟨rfl, hmoved⟩ := hok
    have hs := hloaded.resolve_left (by decide)
    exact ⟨hs.congr rfl rfl, hbeat.resolve_left hmoved⟩
  · trivial
  · trivial
  · exact ⟨hversion.imp_right fun hs => hs.congr rfl rfl, hbeat⟩
  · trivial

/-- **The return**: nothing has been published. -/
theorem Progress.finishLoad (hp : h.Progress t m) (hstage : h.stage = .adoptTick) (v : Word) :
    (h.finishLoad v).Progress t m := by
  simp only [Progress, hstage] at hp
  obtain ⟨hs, hf, hseq⟩ := hp
  have hbegun : t.point.begun = (0, 0) := by
    have hpoint := hs.point
    cases hp : t.point
    all_goals first
      | rfl
      | (rw [hp] at hpoint; cases hpoint)
  refine ⟨hs.declared, hf, .of_none rfl rfl rfl hs.seq hbegun, hseq, fun _ => hseq, trivial, ?_⟩
  rintro r ⟨⟩

/-- A poll that finds a new counter has found that of a decision. -/
theorem Progress.poll (hp : h.Progress t m) (hstage : h.stage = .returned .idle) :
    (h.poll (m signalSeq)).Progress t m := by
  unfold Loader.poll
  split_ifs with hold
  · exact hp
  · simp only [Progress, hstage] at hp
    obtain ⟨hdecl, hf, hC, hR⟩ := hp
    have hpos : 0 < h.published := by
      refine Nat.pos_of_ne_zero fun h0 => hold ?_
      rw [hC.seq, h0, hR.fresh h0]
      rfl
    exact ⟨hdecl, hf, hC.congr rfl fun _ _ => rfl, hR.adopted, hR.fresh, ⟨hpos, le_rfl, hC.seq⟩,
      fun r hr => (hR.records r hr).grow le_rfl (fun _ => id) fun _ => id⟩

/-- Its side and tick are those of decisions, too. -/
theorem Progress.side {v : Word} (hp : h.Progress t m) (hstage : h.stage = .returned (.seq v)) :
    ({ h with stage := .returned (.side v (m signal)) } : Loader).Progress t m := by
  simp only [Progress, hstage] at hp
  obtain ⟨hdecl, hf, hC, hR⟩ := hp
  have hcalled : h.Called v := hR.polls
  have hsides := (hC.begun (hcalled.pos.trans_le hcalled.published)).1
  exact ⟨hdecl, hf, hC.congr rfl fun _ _ => rfl, hR.adopted, hR.fresh,
    ⟨⟨hcalled.pos, hcalled.published, hcalled.counter⟩, hC.side hsides⟩,
    fun r hr => (hR.records r hr).grow le_rfl (fun _ => id) fun _ => id⟩

theorem Progress.finishPoll {v d : Word} (hp : h.Progress t m)
    (hstage : h.stage = .returned (.side v d)) :
    (h.finishPoll v d (m signalTick)).Progress t m := by
  simp only [Progress, hstage] at hp
  obtain ⟨hdecl, hf, hC, hR⟩ := hp
  obtain ⟨hcalled, hside⟩ : h.Called v ∧ d ∈ h.sides := hR.polls
  have hpos := hcalled.pos.trans_le hcalled.published
  have htick := hC.tick (hC.begun hpos).2
  refine ⟨hdecl, hf, hC.congr rfl fun _ _ => rfl, hR.adopted, fun h0 => absurd h0 hpos.ne', trivial,
    fun r hr => ?_⟩
  rcases List.mem_cons.mp hr with rfl | hr
  · exact ⟨hcalled.pos, hcalled.published, hcalled.counter, hside, htick⟩
  · exact (hR.records r hr).grow le_rfl (fun _ => id) fun _ => id

/-- Other stores do not concern the handshake. -/
theorem Progress.other {p : PollStage} (hp : h.Progress t m) (hstage : h.stage = .returned p)
    (hm : ∀ a ∈ [signal, signalTick, signalSeq, cfgRestart], m' a = m a) : h.Progress t m' := by
  simp only [Progress, hstage] at hp ⊢
  obtain ⟨hdecl, hf, hC, hR⟩ := hp
  refine ⟨hdecl, hf.imp_left fun h0 => ?_, hC.congr rfl hm, hR⟩
  exact (hm _ (by decide)).trans h0

end Host

/-- **Everything the host does keeps the invariant.** -/
theorem Inv.act (hI : Inv s c h) (hx : Act s h c.mem x h') :
    Inv s { c with mem := Access.applyOpt c.mem x } h' := by
  have hdis := hI.disables
  have hparks : ∀ {st}, h.stage = st → ¬LoadStage.Parks s c.mem st → ¬h.stage.Parks s c.mem := by
    rintro st rfl hno
    exact hno
  cases hx with
  | earlier a v hstage ha => exact hI.earlier hstage v ha
  | call cfg hstage => exact hI.call cfg
  | store hstage => exact hI.store hstage
  | stored hstage =>
    rw [hstage] at hdis
    refine hI.running ?_ (by rintro a v ⟨⟩) rfl (fun t _ => trivial) (hdis.2 (by simp))
      (by rintro l ⟨⟩)
    rintro ⟨hparked, hp⟩
    exact not_parks_stored hparked (hstage ▸ hp)
  | readback hstage =>
    rw [hstage] at hdis
    refine hI.loading (hparks hstage id) rfl ?_ ?_ ?_
    all_goals
      simp only [Progress, LoadStage.compare]
      split_ifs
    all_goals first
      | exact fun _ _ => trivial
      | exact hdis
      | rintro l ⟨⟩
  | version hstage =>
    -- from here on an old version can no more be taken for the program's
    rw [hstage] at hdis
    refine hI.running (fun hp => hparks hstage id hp.2) ?_ rfl (fun t _ => .inl ?_) ?_
      (by rintro l ⟨⟩)
    · rintro a v ⟨⟩
      decide
    · exact Function.update_self fwVersion 0 c.mem
    · change Function.update c.mem fwVersion 0 cfgEnable = 0
      rw [Function.update_of_ne (by decide)]
      exact hdis
  | restart hstage =>
    rw [hstage] at hdis
    have hkeep : ∀ a, a ≠ cfgRestart →
        Access.applyOpt c.mem (some (.store cfgRestart 1)) a = c.mem a :=
      fun a ha => Function.update_of_ne ha 1 c.mem
    refine hI.running (fun hp => hparks hstage id hp.2) ?_ rfl (fun t hp => ?_) ?_ (by rintro l ⟨⟩)
    · rintro a v ⟨⟩
      decide
    · simp only [Progress, hstage] at hp
      refine hp.imp (fun hv => ?_) fun hs => hs.congr rfl (hkeep _ (by decide))
      exact (hkeep _ (by decide)).trans hv
    · exact (hkeep _ (by decide)).trans hdis
  | beat hstage =>
    rw [hstage] at hdis
    refine hI.loading (hparks hstage id) rfl (fun t hp => ?_) hdis (by rintro l ⟨⟩)
    simp only [Progress, hstage] at hp
    exact ⟨hp.imp_right fun hs => hs.congr rfl rfl, .inl rfl⟩
  | asleep hstage =>
    rw [hstage] at hdis
    refine hI.loading (hparks hstage id) rfl (fun t hp => ?_) hdis (by rintro l ⟨⟩)
    simp only [Progress, hstage] at hp
    exact ⟨hp.1.imp_right fun hs => hs.congr rfl rfl, hp.2,
      hp.1.imp_right fun hs => hs.congr rfl rfl⟩
  | awake hstage =>
    rw [hstage] at hdis
    refine hI.loading (hparks hstage id) rfl (fun t hp => hp.judge hstage) ?_ ?_
    all_goals
      simp only [LoadStage.judge]
      split_ifs
    all_goals first
      | exact hdis
      | rintro l ⟨⟩
  | adoptSignal hstage =>
    rw [hstage] at hdis
    refine hI.loading (hparks hstage id) rfl (fun t hp => ?_) hdis (by rintro l ⟨⟩)
    simp only [Progress, hstage] at hp
    exact ⟨hp.1.congr rfl rfl, hp.2, hp.1.seq⟩
  | adoptFill hstage =>
    rw [hstage] at hdis
    refine hI.loading (hparks hstage id) rfl (fun t hp => ?_) hdis (by rintro l ⟨⟩)
    simp only [Progress, hstage] at hp
    exact ⟨hp.1.congr rfl rfl, hp.2.1, hp.2.2⟩
  | adoptTick hstage =>
    exact hI.loading (hparks hstage id) rfl (fun t hp => hp.finishLoad hstage _)
      trivial (by rintro l ⟨⟩)
  | seq hstage =>
    have hpoll : (h.poll (c.mem signalSeq)).cleared = h.cleared ∧
        ∃ p, (h.poll (c.mem signalSeq)).stage = .returned p := by
      unfold poll
      split_ifs
      · exact ⟨rfl, _, hstage⟩
      · exact ⟨rfl, _, rfl⟩
    obtain ⟨hcleared, p, hp⟩ := hpoll
    refine hI.loading (hparks hstage id) hcleared (fun t hp => hp.poll hstage) ?_ ?_
    · rw [hp]
      trivial
    · rw [hp]
      rintro l ⟨⟩
  | side hstage =>
    exact hI.loading (hparks hstage id) rfl (fun t hp => hp.side hstage) trivial
      (by rintro l ⟨⟩)
  | tick hstage =>
    exact hI.loading (hparks hstage id) rfl (fun t hp => hp.finishPoll hstage)
      trivial (by rintro l ⟨⟩)
  | other a v hstage hin hne =>
    -- a store into the input block, which is none of the words of the handshake
    have hkeep : ∀ b ∈ [signal, signalTick, signalSeq, cfgRestart], b ≠ a := by
      intro b hb hba
      subst hba
      simp only [List.mem_cons, List.not_mem_nil, or_false] at hb
      rcases hb with rfl | rfl | rfl | rfl
      · exact absurd hin.2 (by decide)
      · exact absurd hin.2 (by decide)
      · exact absurd hin.2 (by decide)
      · exact hne rfl
    refine hI.running (fun hp => hparks hstage id hp.2) ?_ rfl
      (fun t hp => hp.other hstage fun b hb => ?_) ?_ ?_
    · rintro b w ⟨⟩
      exact ⟨hin.1, (hkeep _ (by decide)).symm⟩
    · exact Function.update_of_ne (hkeep b hb) v c.mem
    · rw [hstage]
      trivial
    · rw [hstage]
      rintro l ⟨⟩

/-- The invariant in every reachable state. -/
theorem reachable_inv (hr : cpuMachine.Reachable (loader s) (Starts s) (c, h)) : Inv s c h := by
  refine hr.invariant (I := fun a => Inv s a.1 a.2) (fun a ha => ?_) ?_
  · obtain ⟨hcpu, hstage⟩ := ha
    refine ⟨?_, by rw [hstage]; trivial, by rw [hstage]; rintro l ⟨⟩⟩
    rcases hcpu with hparked | ⟨t, hsim, hl, hc⟩
    · exact .inl ⟨hparked, by rw [hstage]; trivial⟩
    · exact .inr ⟨t, hsim, hl, hc, by rw [Progress, hstage]; trivial⟩
  · rintro a b hI hab
    cases hab with
    | internal hs he => exact hI.internal hs (by simpa [cpuMachine] using he)
    | @access c c' h i y hs he hp =>
      obtain ⟨hy, rfl⟩ : c.toCore.access c.current = some y ∧ c.pc = i := by
        simpa [cpuMachine] using he
      exact hI.access hs hy
    | act hx => exact hI.act hx
    | reset hr hh => exact hh.elim

end Loader

/-- **The start-up handshake is sound.** When the load has returned 0, the CPU has declared its
version since the host cleared it, after a 0 in `SIGNAL_SEQ`; the handle has adopted 0; and every
record of `fmma_fpga_poll_signal` stems from a decision published since then. When it has returned
-1, trading is off. -/
theorem handshake_sound (s : Strategy) {c : Cpu} {h : Loader}
    (hr : cpuMachine.Reachable (loader s) (Loader.Starts s) (c, h)) :
    (∀ p, h.stage = .returned p →
      h.declared = true ∧ h.adopted.signalSeq = 0 ∧ ∀ r ∈ h.records, h.Stems r) ∧
    (h.stage = .failed → c.mem cfgEnable = 0) := by
  have hI := Loader.reachable_inv hr
  refine ⟨fun p hp => ?_, fun hf => ?_⟩
  · rcases hI.cpu with ⟨-, hparks⟩ | ⟨t, -, -, -, hprogress⟩
    · rw [hp] at hparks
      exact hparks.elim
    · simp only [Loader.Progress, hp] at hprogress
      obtain ⟨hdecl, -, -, hR⟩ := hprogress
      exact ⟨hdecl, hR.adopted, hR.records⟩
  · have hdis := hI.disables
    rw [hf] at hdis
    exact hdis

/-! ### A concrete run -/

/-- What the host can be told to do: the next step of what it is at, or a store. -/
inductive LoaderCommand
  | next
  | poke (a : Addr) (v : Word)

/-- What it does then, if it can. -/
def LoaderCommand.perform (h : Loader) (m : Addr → Word) :
    LoaderCommand → Option (Option (Access Addr Word) × Loader)
  | .next =>
    match h.stage with
    | .version => some (some (.store fwVersion 0), { h with stage := .restart, declared := false })
    | .restart => some (some (.store cfgRestart 1), { h with stage := .beat })
    | .beat => some (some (.load heartbeat), { h with stage := .asleep (m heartbeat) 0 })
    | .asleep beat0 i =>
      some (some (.load fwVersion), { h with stage := .awake beat0 i (m fwVersion) })
    | .awake beat0 i v =>
      some (some (.load heartbeat), { h with stage := .judge beat0 i v (m heartbeat) })
    | .adoptSignal => some (some (.load signalSeq),
        { h with stage := .adoptFill, fpga := { h.fpga with signalSeq := m signalSeq } })
    | .adoptFill => some (some (.load fillSeq),
        { h with stage := .adoptTick, fpga := { h.fpga with fillSeq := m fillSeq } })
    | .adoptTick => some (some (.load tickSeq), h.finishLoad (m tickSeq))
    | .returned .idle => some (some (.load signalSeq), h.poll (m signalSeq))
    | .returned (.seq v) =>
      some (some (.load signal), { h with stage := .returned (.side v (m signal)) })
    | .returned (.side v d) => some (some (.load signalTick), h.finishPoll v d (m signalTick))
    | _ => none
  | .poke a v =>
    match h.stage with
    | .returned _ =>
      if (inputBase ≤ a ∧ a < outputBase) ∧ a ≠ cfgRestart then some (some (.store a v), h)
      else none
    | _ => none

/-- The loader once the image is in place: it stores to the shared blocks only. -/
def lateLoader (s : Strategy) : Host Loader :=
  (loader s).restrict (fun _ _ _ _ => True)
    fun _ _ x => ∀ a v, x = some (.store a v) → inputBase ≤ a

theorem lateLoader_onlyShared (s : Strategy) : (lateLoader s).OnlyShared :=
  fun _ _ _ _ hx => hx.2

/-- What the host does on a command. -/
theorem LoaderCommand.perform_act (s : Strategy) {k : LoaderCommand} {h h' : Loader}
    {m : Addr → Word} {x : Option (Access Addr Word)} (hk : k.perform h m = some (x, h')) :
    (lateLoader s).act h m x h' := by
  cases k with
  | next =>
    cases hstage : h.stage
    case returned p =>
      cases p
      all_goals
        simp only [perform, hstage, Option.some.injEq, Prod.mk.injEq] at hk
        obtain ⟨rfl, rfl⟩ := hk
      · exact ⟨.seq hstage, by rintro a v ⟨⟩⟩
      · exact ⟨.side hstage, by rintro a v ⟨⟩⟩
      · exact ⟨.tick hstage, by rintro a v ⟨⟩⟩
    all_goals simp only [perform, hstage, Option.some.injEq, Prod.mk.injEq, reduceCtorEq] at hk
    all_goals obtain ⟨rfl, rfl⟩ := hk
    · exact ⟨.version hstage, by rintro a v ⟨⟩; decide⟩
    · exact ⟨.restart hstage, by rintro a v ⟨⟩; decide⟩
    · exact ⟨.beat hstage, by rintro a v ⟨⟩⟩
    · exact ⟨.asleep hstage, by rintro a v ⟨⟩⟩
    · exact ⟨.awake hstage, by rintro a v ⟨⟩⟩
    · exact ⟨.adoptSignal hstage, by rintro a v ⟨⟩⟩
    · exact ⟨.adoptFill hstage, by rintro a v ⟨⟩⟩
    · exact ⟨.adoptTick hstage, by rintro a v ⟨⟩⟩
  | poke a v =>
    cases hstage : h.stage
    case returned p =>
      simp only [perform, hstage] at hk
      split_ifs at hk with hcan
      obtain ⟨rfl, rfl⟩ : some (.store a v) = x ∧ h = h' := by simpa using hk
      refine ⟨.other a v hstage hcan.1 hcan.2, ?_⟩
      rintro b w ⟨⟩
      exact hcan.1.1
    all_goals simp only [perform, hstage, reduceCtorEq] at hk

/-- Scripts for the loader. -/
def loaderDirector (s : Strategy) : Director s (lateLoader s) LoaderCommand where
  perform k h m := k.perform h m
  ok _ := true
  perform_act hk := LoaderCommand.perform_act s hk
  ok_permitted _ _ _ := ⟨trivial, trivial⟩

namespace Loader

variable {s : Strategy} {c : Cpu} {h : Loader}

/-- A host before its first load. -/
def cold : Loader := ⟨.before, ⟨0, 0, 0⟩, ⟨0, 0, 0⟩, false, false, 0, [], [], 0, []⟩

/-- The host makes the stores of the load, one after the other. -/
theorem performs (s : Strategy) (c : Cpu) (h : Loader) (l : List (Addr × Word)) :
    Relation.ReflTransGen (cpuMachine.Step (loader s)) (c, { h with stage := .stores l })
      (c.writes l, { h with stage := .stores [] }) := by
  induction l generalizing c with
  | nil => exact .refl
  | cons w rest ih =>
    have hstep : cpuMachine.Step (loader s) (c, { h with stage := .stores (w :: rest) })
        (c.write w.1 w.2, { h with stage := .stores rest }) :=
      .act (M := cpuMachine) (E := loader s) (a := c) (Act.store (a := w.1) (v := w.2) rfl)
    exact .head hstep (ih (c.write w.1 w.2))

/-- It finds the image it has written. -/
theorem reads_back (hl : s.Loaded c.mem) (h : Loader) {i : ℕ} (hi : i < s.image.length) :
    Relation.ReflTransGen (cpuMachine.Step (loader s)) (c, { h with stage := .readback i })
      (c, { h with stage := .version }) := by
  induction hn : s.image.length - i using Nat.strong_induction_on generalizing i with
  | _ n ih =>
    have hword : s.image[i]? = some (c.mem (BitVec.ofNat 10 (8 + i))) := by
      rw [List.getElem?_eq_getElem hi, hl i hi]
    have hstep : cpuMachine.Step (loader s) (c, { h with stage := .readback i })
        (c, { h with stage := .compare s.image i (c.mem (BitVec.ofNat 10 (8 + i))) }) :=
      .act (M := cpuMachine) (E := loader s) (a := c) (Act.readback rfl)
    rw [LoadStage.compare, if_pos hword] at hstep
    split_ifs at hstep with hlast
    · exact .head hstep (ih _ (by omega) hlast rfl)
    · exact .single hstep

/-- A RAM of zeros after the stores of a load with all settings zero. -/
def storedRam (s : Strategy) : Addr → Word :=
  ((powerUp fun _ => 0).writes (loadStores ⟨0, 0, 0, 0, 0⟩ s.image)).mem

/-- The load onto a parked CPU with a RAM of zeros, up to the readback. -/
theorem reachable_stored (s : Strategy) (hpc : c.pc = programBase) (hmem : c.mem = storedRam s) :
    cpuMachine.Reachable (loader s) (Starts s) (c, { cold with stage := .readback 0 }) := by
  have heq : ({ c with mem := fun _ => 0 } : Cpu).writes
      (loadStores ⟨0, 0, 0, 0, 0⟩ s.image) = c := by
    have hram := (Cpu.writes_mem (c := { c with mem := fun _ => 0 }) (d := powerUp fun _ => 0) rfl
      (loadStores ⟨0, 0, 0, 0, 0⟩ s.image)).trans hmem.symm
    rw [Cpu.writes_eq, hram]
  refine ⟨({ c with mem := fun _ => 0 }, cold), ⟨.inl ⟨hpc, rfl⟩, rfl⟩, ?_⟩
  have hcall : cpuMachine.Step (loader s) ({ c with mem := fun _ => 0 }, cold)
      ({ c with mem := fun _ => 0 },
        { cold with stage := .stores (loadStores ⟨0, 0, 0, 0, 0⟩ s.image) }) :=
    .act (M := cpuMachine) (E := loader s) (a := { c with mem := fun _ => 0 }) (Act.call _ rfl)
  have hrun := performs s { c with mem := fun _ => 0 } cold (loadStores ⟨0, 0, 0, 0, 0⟩ s.image)
  rw [heq] at hrun
  have hstored : cpuMachine.Step (loader s) (c, { cold with stage := .stores [] })
      (c, { cold with stage := .readback 0 }) :=
    .act (M := cpuMachine) (E := loader s) (a := c) (Act.stored rfl)
  exact .head hcall (hrun.tail hstored)

/-- It leaves the image in the RAM. -/
theorem loaded_storedRam (s : Strategy) : s.Loaded (storedRam s) := by
  have hI := reachable_inv (reachable_stored s (c := powerUp (storedRam s)) rfl rfl)
  rcases hI.cpu with ⟨-, hparks⟩ | ⟨-, -, hl, -, -⟩
  · exact hparks.elim
  · exact hl

/-- The stores of a quote, as commands. -/
def quote (seq bid ask : Word) : List (Line LoaderCommand) :=
  [.host (.poke tickSeq (seq - 1)), .host (.poke Fmma.bid bid), .host (.poke Fmma.ask ask),
    .host (.poke tickSeq seq)]

/-- The CPU declares its version before the host clears it, and once more after the restart; the
load returns, and the first record is that of the first decision. -/
def script : List (Line LoaderCommand) :=
  [.cpu 12, .host .next, .host .next, .host .next, .cpu 20] ++ List.replicate 5 (.host .next) ++
    [.host (.poke cfgMaxPos 5), .host (.poke cfgEnable 1)] ++ quote 2 100 100 ++ [.cpu 20] ++
    quote 4 90 90 ++ [.cpu 30, .host .next, .host .next, .host .next]

end Loader

/-- A load that returns 0, and the record of a decision after it. -/
theorem handshake_sound_buy : ∃ h : Loader, h.records = [(1, ⟨signalBuy, 4, 1, 0⟩)] ∧
    h.declared = true ∧ h.adopted.signalSeq = 0 ∧ ∀ r ∈ h.records, h.Stems r := by
  obtain ⟨t, c, h, ⟨⟨a, b⟩, ⟨hpc, hl, hmem, rfl⟩, hrun⟩, -, hP⟩ :=
    (loaderDirector .trading).exists_reachable (lateLoader_onlyShared .trading) (fun _ _ h => h)
      (fun m h => m = Loader.storedRam .trading ∧ h = { Loader.cold with stage := .version })
      (m := Loader.storedRam .trading) (h := { Loader.cold with stage := .version })
      ⟨Strategy.install_eq_self (Loader.loaded_storedRam .trading), rfl⟩ Loader.script
      (P := fun a => a.2.records = [(1, ⟨signalBuy, 4, 1, 0⟩)] ∧ a.2.stage = .returned .idle)
      (by decide +kernel)
  obtain ⟨hrecords, hstage⟩ := of_decide_eq_true hP
  obtain ⟨a', ha', hload⟩ := Loader.reachable_stored .trading hpc hmem
  have hread := Loader.reads_back hl Loader.cold (i := 0) (by decide +kernel)
  have hlate := Relation.ReflTransGen.mono (fun _ _ => Machine.Step.of_restrict) _ _ hrun
  have hr : cpuMachine.Reachable (loader .trading) (Loader.Starts .trading) (c, h) :=
    ⟨a', ha', (hload.trans hread).trans hlate⟩
  exact ⟨h, hrecords, (handshake_sound .trading hr).1 _ hstage⟩

end Fmma
