import Fmma.Board.WriteSets
import Fmma.Board.Containment

/-!
# The entry word

Why the entry word of an image is stored last. On a parked CPU nothing of the image is executed
before it is complete, and from then on nothing else. On a CPU that runs another image, the stores
go into the words it executes, and it executes a mixture of the two.

The image is any list of words that fits the program area. `Running` says that the CPU has begun it
at `PROGRAM_BASE`, and `Confined` that this image, once begun, keeps to its words.
-/

namespace Fmma

namespace Loading

/-! ### Running an image -/

/-- Others store anything into the shared blocks. -/
def outsider : Host Unit where
  act _ _ x _ := ∀ a v, x = some (.store a v) → inputBase ≤ a
  observe h _ _ _ := h

/-- The CPU has begun the image at `PROGRAM_BASE`, with anything in its registers and in the rest of
the RAM. -/
def Running (image : List Word) (c : Cpu) : Prop :=
  cpuMachine.Reachable outsider (fun a => a.1.pc = programBase ∧ Holds image a.1.mem) (c, ())

/-- The CPU is about to execute a word of the image, which is complete. -/
structure Executes (image : List Word) (c : Cpu) : Prop where
  complete : Holds image c.mem
  inside : InImage image c.pc

/-- An image that keeps to its words: it does not leave them, and does not change them. -/
def Confined (image : List Word) : Prop := ∀ c, Running image c → Executes image c

variable {image : List Word} {c c' : Cpu}

/-- The entry word starts the image. -/
theorem Running.start (hpc : c.pc = programBase) (hm : Holds image c.mem) : Running image c :=
  ⟨(c, ()), ⟨hpc, hm⟩, .refl⟩

/-- The CPU goes on running it. -/
theorem Running.step (h : Running image c) (hs : c.Steps c') : Running image c' := by
  cases he : cpuMachine.event c with
  | none => exact h.tail (.internal hs he)
  | some x => exact h.tail (.access (E := outsider) hs he trivial)

/-- Others may store into the shared blocks. -/
theorem Running.write (h : Running image c) {a : Addr} (ha : inputBase ≤ a) (v : Word) :
    Running image (c.write a v) := by
  refine h.tail (.act (M := cpuMachine) (E := outsider) (a := c) (x := some (.store a v)) ?_)
  rintro b w heq
  cases heq
  exact ha

theorem outsider_onlyShared : Host.OnlyShared outsider := fun _ _ _ _ hx => hx

/-- Both strategies keep to their words. -/
theorem confined_strategy (s : Strategy) : Confined s.image := by
  intro c hc
  have hruns : s.Runs c := hc.invariant (I := fun a => s.Runs a.1)
    (fun a ha => .of_programBase ha.2 ha.1) fun _ _ => runs_of_step outsider_onlyShared
  exact ⟨hruns.loaded, hruns.inImage⟩

/-! ### The load -/

/-- `fmma_fpga_load` begins, on a parked CPU or on one that runs the image already. -/
structure Begins (image : List Word) (cfg : FpgaConfig) (a : Cpu × Driver) : Prop where
  cpu : a.1.Parked ∨ (Running image a.1 ∧ Confined image)
  todo : a.2.todo = load cfg image
  running : a.2.running = false

/-- There are words of the image to be stored. -/
def Unwritten (image : List Word) (h : Driver) : Prop := ∃ w ∈ h.todo, InImage image w.1

/-- The CPU is parked, and the words that are missing are to come, the entry word last; or the CPU
runs the image, and the stores that are to come do not change it. -/
def Phase (image : List Word) (c : Cpu) (h : Driver) : Prop :=
  (c.Parked ∧ h.running = false ∧ Covered image c.mem h.todo ∧ EntryLast image h.todo) ∨
    (Running image c ∧ (Unwritten image h → Confined image))

/-- **The invariant** of the load. -/
structure Inv (image : List Word) (c : Cpu) (h : Driver) : Prop where
  phase : Phase image c h
  faithful : Faithful image h.todo
  shared : ∀ w ∈ h.todo, InImage image w.1 ∨ inputBase ≤ w.1
  idle : h.running = true → ¬Unwritten image h

variable {cfg : FpgaConfig} {h h' : Driver} {a : Addr} {v : Word}

/-- The load begins. -/
theorem Begins.inv (hlen : image.length ≤ 248) (hb : Begins image cfg (c, h)) :
    Inv image c h := by
  obtain ⟨hcpu, htodo, hrunning⟩ := hb
  change h.todo = _ at htodo
  change h.running = _ at hrunning
  refine ⟨?_, ?_, fun w hw => ?_, fun hrun => ?_⟩
  · rcases hcpu with hparked | ⟨hruns, hconfined⟩
    · rw [Phase, htodo]
      exact .inl ⟨hparked, hrunning, load_covered hlen cfg c.mem, load_entryLast hlen cfg⟩
    · exact .inr ⟨hruns, fun _ => hconfined⟩
  · rw [htodo]
    exact load_faithful hlen cfg
  · rw [htodo] at hw
    rcases (mem_load hlen).mp hw with hw | hw | hw
    · exact .inr (load_shared cfg (.inl hw)).1
    · exact .inl (writeProgram_addr hlen hw).1
    · exact .inr (load_shared cfg (.inr hw)).1
  · rw [hrunning] at hrun
    cases hrun

/-- A store into the words of a running image. -/
theorem Running.rewrite (hc : Confined image) (h : Running image c) (ha : InImage image a)
    (hv : image[a.toNat - 8]? = some v) : Running image (c.write a v) := by
  have hword := ((hc c h).complete.getElem? ha).symm.trans hv
  have heq : c.mem a = v := Option.some.inj hword
  rw [Cpu.write, ← heq, Function.update_eq_self]
  exact h

/-- A store of the driver. -/
theorem Inv.store (hlen : image.length ≤ 248) {rest : List (Addr × Word)} (hI : Inv image c h)
    (htodo : h.todo = (a, v) :: rest) :
    Inv image (c.write a v) { h with todo := rest, byHost := a :: h.byHost } := by
  obtain ⟨hphase, hfaithful, hshared, hidle⟩ := hI
  have hfewer : Unwritten image { h with todo := rest, byHost := a :: h.byHost } →
      Unwritten image h := by
    rintro ⟨w, hw, hin⟩
    exact ⟨w, htodo ▸ List.mem_cons_of_mem _ hw, hin⟩
  refine ⟨?_, fun w hw => hfaithful w (htodo ▸ List.mem_cons_of_mem _ hw),
    fun w hw => hshared w (htodo ▸ List.mem_cons_of_mem _ hw), fun hrun hun => hidle hrun
      (hfewer hun)⟩
  rcases hphase with ⟨hparked, hrunning, hcov, hlast⟩ | ⟨hruns, hconfined⟩
  · rw [htodo] at hcov hlast hfaithful
    have hcov' := hcov.store hfaithful
    by_cases ha : a = programBase
    · -- the entry word: the image is complete, and the CPU begins it
      refine .inr ⟨.start hparked.pc (hcov'.holds hlen (hlast.1 ha)), ?_⟩
      rintro ⟨w, hw, hin⟩
      exact absurd hin (hlast.1 ha w hw)
    · have hword : Function.update c.mem a v programBase = 0 :=
        (Function.update_of_ne (Ne.symm ha) v c.mem).trans hparked.word
      exact .inl ⟨⟨hparked.pc, hword⟩, hrunning, hcov', hlast.2⟩
  · refine .inr ⟨?_, fun hun => hconfined (hfewer hun)⟩
    have hmem : (a, v) ∈ h.todo := htodo ▸ List.mem_cons_self
    by_cases ha : InImage image a
    · have hv : image[a.toNat - 8]? = some v := hfaithful (a, v) hmem ha
      exact hruns.rewrite (hconfined ⟨(a, v), hmem, ha⟩) ha hv
    · exact hruns.write ((hshared _ hmem).resolve_left ha) v

/-- Nothing is left to be stored. -/
theorem not_unwritten_of_nil (htodo : h.todo = []) : ¬Unwritten image h := by
  rintro ⟨w, hw, -⟩
  rw [htodo] at hw
  cases hw

/-- Everything the driver does keeps the invariant. -/
theorem Inv.act (hlen : image.length ≤ 248) {x : Option (Access Addr Word)} (hI : Inv image c h)
    (hx : Driver.Act h c.mem x h') :
    Inv image { c with mem := Access.applyOpt c.mem x } h' := by
  cases hx with
  | store htodo => exact hI.store hlen htodo
  | load a => exact hI
  | poll hrunning => exact ⟨hI.phase, hI.faithful, hI.shared, hI.idle⟩
  | declared htodo hrunning hversion =>
    have hnone : ¬Unwritten image { h with fpga := .adopt c.mem, running := true } :=
      not_unwritten_of_nil htodo
    refine ⟨.inr ⟨?_, fun hun => absurd hun hnone⟩, hI.faithful, hI.shared, fun _ => hnone⟩
    rcases hI.phase with ⟨hparked, -, hcov, -⟩ | ⟨hruns, -⟩
    · rw [htodo] at hcov
      exact .start hparked.pc (hcov.holds hlen fun w hw => by cases hw)
    · exact hruns
  | call k htodo hrunning =>
    have hout : ∀ w ∈ (k.stores h.fpga).1, inputBase ≤ w.1 := fun w hw =>
      (Driver.call_shared k _ hw).1
    have hnone : ¬Unwritten image
        { h with todo := (k.stores h.fpga).1, fpga := (k.stores h.fpga).2 } := by
      rintro ⟨w, hw, hin⟩
      exact not_inImage hlen (hout w hw) hin
    refine ⟨.inr ⟨?_, fun hun => absurd hun hnone⟩,
      fun w hw hin => absurd hin (not_inImage hlen (hout w hw)), fun w hw => .inr (hout w hw),
      fun _ => hnone⟩
    rcases hI.phase with ⟨-, hnot, -⟩ | ⟨hruns, -⟩
    · rw [hrunning] at hnot
      cases hnot
    · exact hruns

/-- An instruction of the CPU. -/
theorem Inv.step (hI : Inv image c h) (hs : c.Steps c') : Inv image c' h := by
  refine ⟨?_, hI.faithful, hI.shared, hI.idle⟩
  rcases hI.phase with ⟨hparked, hrunning, hcov, hlast⟩ | ⟨hruns, hconfined⟩
  · obtain ⟨hcore, hmem, -⟩ := hparked.step hs
    refine .inl ⟨⟨?_, ?_⟩, hrunning, hmem.symm ▸ hcov, hlast⟩
    · rw [hcore]
      exact hparked.pc
    · rw [hmem]
      exact hparked.word
  · exact .inr ⟨hruns.step hs, hconfined⟩

/-- What the driver remembers of the CPU's stores is not part of it. -/
theorem Inv.observe (hI : Inv image c h) (y : Access Addr Word) :
    Inv image c (h.observe y) := by
  cases y with
  | load a => exact hI
  | store a v => exact ⟨hI.phase, hI.faithful, hI.shared, hI.idle⟩

/-- The invariant in every reachable state. -/
theorem reachable_inv (hlen : image.length ≤ 248)
    (hr : cpuMachine.Reachable driver (Begins image cfg) (c, h)) : Inv image c h := by
  refine hr.invariant (I := fun a => Inv image a.1 a.2) (fun a ha => Begins.inv hlen ha) ?_
  rintro a b hI hab
  cases hab with
  | internal hs he => exact hI.step hs
  | access hs he hp => exact (hI.step hs).observe _
  | act hx => exact hI.act hlen hx
  | reset hr hh => exact hh.elim

/-! ### The load half way -/

/-- The stores of `write_program` before that of the entry word. -/
def ascending (image : List Word) : List (Addr × Word) :=
  image.zipIdx.tail.map fun w => (BitVec.ofNat 10 (8 + w.2), w.1)

theorem getElem?_ascending (k : ℕ) : (ascending image)[k]? =
    image[k + 1]?.map fun v => (BitVec.ofNat 10 (8 + (k + 1)), v) := by
  rw [ascending, List.getElem?_map, List.getElem?_tail, List.getElem?_zipIdx, Option.map_map,
    zero_add]
  rfl

/-- The stores of a load up to word `i` of the image. -/
def upTo (cfg : FpgaConfig) (image : List Word) (i : ℕ) : List (Addr × Word) :=
  ([(cfgEnable, 0), (cfgRestart, 0)] ++ pushConfig cfg) ++ (ascending image).take i

/-- The stores that are left then. -/
def beyond (image : List Word) (i : ℕ) : List (Addr × Word) :=
  (ascending image).drop i ++ ((image.take 1).map fun w => (programBase, w)) ++ requestRestart

theorem load_eq_upTo (hlen : image.length ≤ 248) (i : ℕ) :
    load cfg image = upTo cfg image i ++ beyond image i := by
  have hsplit : writeProgram image = (ascending image).take i ++ ((ascending image).drop i ++
      (image.take 1).map fun w => (programBase, w)) := by
    rw [← List.append_assoc, List.take_append_drop]
    rfl
  rw [load_eq hlen, hsplit, upTo, beyond]
  simp only [List.append_assoc]

/-- The stores up to word `i` of the image go to the shared blocks and to words 1 to `i`. -/
theorem index_of_mem_upTo {i : ℕ} {w : Addr × Word} (hw : w ∈ upTo cfg image i) :
    inputBase ≤ w.1 ∨ ∃ k, 0 < k ∧ k ≤ i ∧ w.1 = BitVec.ofNat 10 (8 + k) ∧
      image[k]? = some w.2 := by
  rcases List.mem_append.mp hw with hw | hw
  · exact .inl (load_shared cfg (.inl hw)).1
  · obtain ⟨k, hk⟩ := List.mem_iff_getElem?.mp hw
    rw [List.getElem?_take] at hk
    split_ifs at hk with hlt
    rw [getElem?_ascending, Option.map_eq_some_iff] at hk
    obtain ⟨v, hv, rfl⟩ := hk
    exact .inr ⟨k + 1, k.succ_pos, hlt, rfl, hv⟩

/-- Word `i` is in the RAM then. -/
theorem upTo_stored (hlen : image.length ≤ 248) {i : ℕ} (hpos : 0 < i) (hi : i < image.length) :
    (c.writes (upTo cfg image i)).mem (BitVec.ofNat 10 (8 + i)) = image[i] := by
  refine Cpu.writes_of_mem (List.mem_append_right _ (List.mem_iff_getElem?.mpr ⟨i - 1, ?_⟩))
    fun w hw heq => ?_
  · rw [List.getElem?_take, if_pos (by omega), getElem?_ascending, Nat.sub_add_cancel hpos,
      List.getElem?_eq_getElem hi]
    rfl
  · have hin := heq ▸ inImage_index hlen hi
    obtain ⟨k, -, hk, hw1, hget⟩ := (index_of_mem_upTo hw).resolve_left fun hle =>
      not_inImage hlen hle hin
    obtain ⟨hklt, hget⟩ := List.getElem?_eq_some_iff.mp hget
    have hnat := congrArg BitVec.toNat (hw1.symm.trans heq)
    rw [toNat_index hlen hklt, toNat_index hlen hi] at hnat
    obtain rfl : k = i := by omega
    exact hget.symm

/-- The words beyond, and the entry word, are as they were. -/
theorem upTo_kept (hlen : image.length ≤ 248) {i j : ℕ} (hj : j < 248) (hij : j = 0 ∨ i < j) :
    (c.writes (upTo cfg image i)).mem (BitVec.ofNat 10 (8 + j)) =
      c.mem (BitVec.ofNat 10 (8 + j)) := by
  have hjnat : (BitVec.ofNat 10 (8 + j)).toNat = 8 + j := by
    rw [BitVec.toNat_ofNat]
    omega
  refine Cpu.writes_of_ne fun w hw heq => ?_
  rcases index_of_mem_upTo hw with hle | ⟨k, hpos, hk, hw1, hget⟩
  · rw [heq] at hle
    have hbase : 256 ≤ (BitVec.ofNat 10 (8 + j)).toNat := hle
    omega
  · obtain ⟨hklt, -⟩ := List.getElem?_eq_some_iff.mp hget
    have hnat := congrArg BitVec.toNat (hw1.symm.trans heq)
    rw [toNat_index hlen hklt, hjnat] at hnat
    omega

/-- The entry word is still to come. -/
theorem unwritten_beyond (hlen : image.length ≤ 248) (hne : 0 < image.length) {i : ℕ}
    (htodo : h.todo = beyond image i) : Unwritten image h := by
  refine ⟨(programBase, image[0]), ?_, inImage_index hlen hne⟩
  rw [htodo]
  refine List.mem_append_left _ (List.mem_append_right _ ?_)
  cases image with
  | nil => cases hne
  | cons w l => exact List.mem_singleton.mpr rfl

/-- **A mixture.** While another image is in the RAM, the host can store the words up to word `i`
before the CPU makes a step: word `i` is the new one, word `j` the old one. -/
theorem exists_mixture {old : List Word} (hlen : image.length ≤ 248) (hold : Holds old c.mem)
    (htodo : h.todo = load cfg image) {i j : ℕ} (hpos : 0 < i) (hi : i < image.length)
    (hj : j < old.length) (hfits : j < 248) (hij : j = 0 ∨ i < j) :
    ∃ c' h', Relation.ReflTransGen (cpuMachine.Step driver) (c, h) (c', h') ∧
      c'.toCore = c.toCore ∧ Unwritten image h' ∧ c'.mem (BitVec.ofNat 10 (8 + i)) = image[i] ∧
      c'.mem (BitVec.ofNat 10 (8 + j)) = old[j] :=
  ⟨_, _, Driver.performs c h (htodo.trans (load_eq_upTo hlen i)), Cpu.writes_toCore c _,
    unwritten_beyond hlen (by omega) rfl, upTo_stored hlen hpos hi,
    (upTo_kept hlen hfits hij).trans (hold j hj)⟩

end Loading

open Loading

/-- **No partial image.** The load begins on a parked CPU, or on one that runs the image already.
While words of the image are still to be stored, the CPU is parked or about to execute a word of the
complete image. Once the load has returned 0 it runs the image, and executes nothing else if the
image keeps to its words. -/
theorem no_partial_image {image : List Word} (hlen : image.length ≤ 248) {cfg : FpgaConfig}
    {c : Cpu} {h : Driver} (hr : cpuMachine.Reachable driver (Begins image cfg) (c, h)) :
    (Unwritten image h → c.Parked ∨ Executes image c) ∧
      (h.running = true → Running image c ∧ (Confined image → Executes image c)) := by
  have hI := Loading.reachable_inv hlen hr
  constructor
  · intro hun
    rcases hI.phase with ⟨hparked, -⟩ | ⟨hruns, hconfined⟩
    · exact .inl hparked
    · exact .inr (hconfined hun c hruns)
  · intro hrunning
    rcases hI.phase with ⟨-, hnot, -⟩ | ⟨hruns, -⟩
    · rw [hrunning] at hnot
      cases hnot
    · exact ⟨hruns, fun hconfined => hconfined c hruns⟩

/-! ### Concrete runs -/

/-- `trading.asm` is loaded onto a parked CPU, and the load returns. -/
theorem no_partial_image_trading : ∃ (c : Cpu) (h : Driver), h.running = true ∧
    Executes Strategy.trading.image c := by
  obtain ⟨t, c, h, ⟨⟨a, b⟩, ⟨hpc, -, hmem, rfl⟩, hrun⟩, -, hP⟩ :=
    (idleDirector .trading).exists_reachable (fun _ _ _ _ hx => hx.elim) (fun _ _ h => h)
      (fun m h => m = loadedRam .trading ∧ h = .waiting .trading) (m := loadedRam .trading)
      (h := .waiting .trading) ⟨Strategy.install_eq_self (loaded_loadedRam .trading), rfl⟩
      [.cpu 12] (P := fun a => a.2.todo = [] ∧ a.2.running = false ∧
        a.1.2 fwVersion = protocolVersion) (by decide +kernel)
  obtain ⟨htodo, hrunning, hversion⟩ := of_decide_eq_true hP
  obtain ⟨c₀, hparked, hload⟩ := Driver.exists_parked .trading hpc hmem
  have hcpu := Relation.ReflTransGen.mono (fun _ _ => step_of_idleDriver) _ _ hrun
  have hdeclared : cpuMachine.Step driver (c, h)
      (c, { h with fpga := .adopt c.mem, running := true }) :=
    .act (M := cpuMachine) (E := driver) (a := c) (Driver.Act.declared htodo hrunning hversion)
  have hr : cpuMachine.Reachable driver (Begins Strategy.trading.image ⟨0, 0, 0, 0, 0⟩)
      (c, { h with fpga := .adopt c.mem, running := true }) :=
    ⟨_, ⟨.inl hparked, rfl, rfl⟩, (hload.trans hcpu).tail hdeclared⟩
  obtain ⟨-, hreturned⟩ := no_partial_image Strategy.trading.length_image_le hr
  exact ⟨c, { h with fpga := .adopt c.mem, running := true }, rfl,
    (hreturned rfl).2 (confined_strategy .trading)⟩

/-- A load onto a parked CPU, or onto one that runs a strategy. -/
def Loading.Onto (old new : Strategy) (a : Cpu × Driver) : Prop :=
  (a.1.Parked ∨ Running old.image a.1) ∧ a.2.todo = load ⟨0, 0, 0, 0, 0⟩ new.image ∧
    a.2.running = false

/-- `market_maker.asm` gets to `LOOP`. -/
theorem Loading.exists_atLoop : ∃ c : Cpu, Running Strategy.marketMaker.image c ∧ c.pc = 56 := by
  obtain ⟨t, c, h, ⟨⟨c₀, h₀⟩, ⟨hpc, hl, -⟩, hrun⟩, hcorr, hP⟩ :=
    (meddlerDirector .marketMaker).exists_reachable meddler_onlyShared (fun _ _ h => h)
      (fun _ _ => True) (m := fun _ => 0) (h := ()) trivial [.cpu 11]
      (P := fun a => a.1.1.point = .loop) (by decide +kernel)
  have hpoint : t.point = .loop := of_decide_eq_true hP
  refine ⟨c, ⟨(c₀, ()), ⟨hpc, hl⟩, ?_⟩, ?_⟩
  · refine Relation.ReflTransGen.mono (fun a b hab => ?_) _ _ hrun
    cases hab with
    | internal hs he => exact .internal hs he
    | access hs he hp => exact .access (E := outsider) hs he trivial
    | act hx => exact .act (E := outsider) fun a v heq => (hx a v heq).1
    | reset hr hh => exact hh.elim
  · rw [hcorr.pc, hpoint]
    rfl

/-- `market_maker.asm` is at `LOOP` while `trading.asm` is loaded. The CPU executes a word of
`trading.asm`, and is then about to execute one of `market_maker.asm`. -/
theorem Loading.exists_executes_both : ∃ (c c' : Cpu) (h : Driver),
    cpuMachine.Reachable driver (Onto .marketMaker .trading) (c, h) ∧
      Unwritten Strategy.trading.image h ∧ c.Steps c' ∧ c.pc = 56 ∧ c'.pc = 57 ∧ c'.mem = c.mem ∧
      Strategy.trading.image[48]? = some (c.mem 56) ∧
      Strategy.marketMaker.image[49]? = some (c.mem 57) := by
  obtain ⟨c₀, hruns, hpc⟩ := Loading.exists_atLoop
  have hheld := (confined_strategy .marketMaker c₀ hruns).complete
  obtain ⟨c, h, hrun, hcore, hun, hnew, hold⟩ := exists_mixture (h := .loading .trading)
    Strategy.trading.length_image_le hheld rfl (i := 48) (j := 49) (by decide)
    (by decide +kernel) (by decide +kernel) (by decide) (.inr (by decide))
  have hpc' : c.pc = 56 := by rw [← hpc, hcore]
  have hword : c.current = .rtype (some .MOV) 14 8 := by
    rw [Cpu.current, hpc']
    change decode (c.mem (BitVec.ofNat 10 (8 + 48))) = _
    rw [hnew]
    decide +kernel
  obtain ⟨c', hs⟩ := Cpu.exists_steps (c := c) (by rw [hword]; exact Decoded.noConfusion)
  obtain ⟨hcore', hmem'⟩ := hs.eq
  rw [hword] at hcore' hmem'
  refine ⟨c, c', h, ⟨_, ⟨.inr hruns, rfl, rfl⟩, hrun⟩, hun, hs, hpc', ?_, hmem', ?_, ?_⟩
  · rw [hcore']
    change c.pc + 1 = 57
    rw [hpc']
    rfl
  · rw [List.getElem?_eq_getElem (by decide +kernel), ← hnew]
    rfl
  · rw [List.getElem?_eq_getElem (by decide +kernel), ← hold]
    rfl

/-- **A mixture is executed.** -/
theorem not_no_partial_image : ¬∀ (old new : Strategy) (c : Cpu) (h : Driver),
    cpuMachine.Reachable driver (Onto old new) (c, h) → Unwritten new.image h →
      c.Parked ∨ Executes old.image c ∨ Executes new.image c := by
  intro hall
  obtain ⟨c, c', h, hr, hun, -, hpc, -, -, hnew, hold⟩ := Loading.exists_executes_both
  rcases hall .marketMaker .trading c h hr hun with hparked | hexec | hexec
  · rw [hparked.pc] at hpc
    exact absurd hpc (by decide)
  · have hword := hexec.complete.getElem? (a := 56) (by decide +kernel)
    have heq := hword.trans hnew.symm
    revert heq
    decide +kernel
  · have hword := hexec.complete.getElem? (a := 57) (by decide +kernel)
    have heq := hword.trans hold.symm
    revert heq
    decide +kernel

end Fmma
