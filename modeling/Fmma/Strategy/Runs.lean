import Fmma.Strategy.Refine

/-!
# A CPU that runs a strategy

`Strategy.Runs s c` forgets at which point the strategy is: the image is in the RAM, and the CPU
is on its way to some point. This is what every step of the CPU keeps, and every store of others
outside the image, and it says where the PC is and what the program stores.
-/

namespace Fmma

namespace Cpu

/-- Stores of the host, in order. -/
def writes (c : Cpu) (l : List (Addr × Word)) : Cpu := l.foldl (fun c w => c.write w.1 w.2) c

variable {c d : Cpu}

@[simp]
theorem writes_toCore (c : Cpu) (l : List (Addr × Word)) : (c.writes l).toCore = c.toCore := by
  induction l generalizing c with
  | nil => rfl
  | cons w l ih => exact ih (c.write w.1 w.2)

/-- The same stores keep two RAMs equal. -/
theorem writes_mem (h : c.mem = d.mem) (l : List (Addr × Word)) :
    (c.writes l).mem = (d.writes l).mem := by
  induction l generalizing c d with
  | nil => exact h
  | cons w l ih =>
    refine ih ?_
    simp only [Cpu.write, h]

/-- They change the RAM only. -/
theorem writes_eq (c : Cpu) (l : List (Addr × Word)) :
    c.writes l = { c with mem := (c.writes l).mem } := by
  induction l generalizing c with
  | nil => rfl
  | cons w l ih => exact ih (c.write w.1 w.2)

/-- A word none of them goes to. -/
theorem writes_of_ne {p : Addr} {l : List (Addr × Word)} (h : ∀ w ∈ l, w.1 ≠ p) :
    (c.writes l).mem p = c.mem p := by
  induction l generalizing c with
  | nil => rfl
  | cons w l ih =>
    refine (ih (c := c.write w.1 w.2) fun u hu => h u (List.mem_cons_of_mem w hu)).trans ?_
    exact Function.update_of_ne (Ne.symm (h w List.mem_cons_self)) w.2 c.mem

/-- A word they all store the same to. -/
theorem writes_of_mem {p : Addr} {v : Word} {l : List (Addr × Word)} (hmem : (p, v) ∈ l)
    (hall : ∀ w ∈ l, w.1 = p → w.2 = v) : (c.writes l).mem p = v := by
  induction l generalizing c with
  | nil => cases hmem
  | cons w l ih =>
    have hrest : ∀ u ∈ l, u.1 = p → u.2 = v := fun u hu => hall u (List.mem_cons_of_mem w hu)
    by_cases hin : (p, v) ∈ l
    · exact ih (c := c.write w.1 w.2) hin hrest
    · have hne : ∀ u ∈ l, u.1 ≠ p := fun u hu heq =>
        hin (heq ▸ hrest u hu heq ▸ hu)
      have hw : (p, v) = w := (List.mem_cons.mp hmem).resolve_right hin
      refine (writes_of_ne (c := c.write w.1 w.2) hne).trans ?_
      subst hw
      exact Function.update_self p v c.mem

end Cpu

namespace Strategy

/-- **The CPU runs the strategy**: it is on its way to a point of the program, and the image is in
the RAM. -/
structure Runs (s : Strategy) (c : Cpu) : Prop where
  sim : ∃ t, s.Sim t c.toCore
  loaded : s.Loaded c.mem

variable {s : Strategy} {t : Thread} {c c' : Cpu} {a : Addr} {v : Word}

/-- The output words a strategy stores to, and the restart request it acknowledges. -/
def Stores (a : Addr) (v : Word) : Prop :=
  (heartbeat ≤ a ∧ a ≤ quoteAsk) ∨ (a = cfgRestart ∧ v = 0)

/-- What the points of a strategy store. -/
theorem stores_of_access (h : t.access s = some (.store a v)) : Stores a v := by
  obtain ⟨point, r⟩ := t
  cases point with
  | clear i =>
    cases h
    refine .inl ?_
    fin_cases i <;> cases s <;> decide
  | clearRestart =>
    cases h
    exact .inr ⟨rfl, rfl⟩
  | _ => first
    | (cases h; done)
    | (cases h; exact .inl (by decide))

/-- A store outside the image leaves it in place. -/
theorem Loaded.update_of_not_inImage {mem : Addr → Word} (h : s.Loaded mem) (ha : ¬s.InImage a)
    (v : Word) : s.Loaded (Function.update mem a v) := by
  intro i hi
  have hlen := s.length_image_le
  have hne : BitVec.ofNat 10 (8 + i) ≠ a := by
    rintro rfl
    refine ha ⟨?_, ?_⟩
    all_goals
      rw [BitVec.toNat_ofNat]
      omega
  rw [Function.update_of_ne hne]
  exact h i hi

/-- At `PROGRAM_BASE` the CPU runs the image it finds, whatever its registers and flags hold. -/
theorem Runs.of_programBase (hl : s.Loaded c.mem) (hpc : c.pc = programBase) : s.Runs c :=
  ⟨⟨_, sim_initial s c.toCore hpc⟩, hl⟩

/-- The PC is in the image. -/
theorem Runs.inImage (h : s.Runs c) : s.InImage c.pc := by
  obtain ⟨t, hsim⟩ := h.sim
  exact inImage_of_code_ne_halt hsim.running.1

/-- The next instruction is the image's. -/
theorem Runs.current (h : s.Runs c) : c.current = s.code c.pc :=
  h.loaded.decode_eq h.inImage

/-- The next instruction is neither a halt nor undefined. -/
theorem Runs.executes (h : s.Runs c) : c.current ≠ .halt ∧ c.current ≠ .undefined := by
  obtain ⟨t, hsim⟩ := h.sim
  rw [h.current]
  exact hsim.running

/-- What the next instruction stores. -/
theorem Runs.stores (h : s.Runs c) (hx : c.toCore.access c.current = some (.store a v)) :
    Stores a v := by
  obtain ⟨t, hsim⟩ := h.sim
  obtain ⟨c', hs⟩ := Cpu.exists_steps h.executes.2
  rcases hsim.step h.loaded hs with ⟨hnone, -⟩ | ⟨-, hacc, -⟩
  · rw [hnone] at hx
    cases hx
  · exact stores_of_access (hacc.symm.trans hx)

/-- The CPU goes on running the strategy. -/
theorem Runs.step (h : s.Runs c) (hs : c.Steps c') : s.Runs c' := by
  obtain ⟨t, hsim⟩ := h.sim
  rcases hsim.step h.loaded hs with ⟨-, hmem, hsim'⟩ | ⟨-, -, hmem, hsim'⟩
  · exact ⟨⟨t, hsim'⟩, hmem ▸ h.loaded⟩
  · exact ⟨⟨_, hsim'⟩, hmem ▸ h.loaded.applyOpt_access⟩

/-- Others may store anything outside the image. -/
theorem Runs.write (h : s.Runs c) (ha : ¬s.InImage a) (v : Word) : s.Runs (c.write a v) :=
  ⟨h.sim, h.loaded.update_of_not_inImage ha v⟩

/-- Stores outside the image leave the CPU running the strategy. -/
theorem Runs.writes (h : s.Runs c) {l : List (Addr × Word)} (hl : ∀ w ∈ l, ¬s.InImage w.1) :
    s.Runs (c.writes l) := by
  induction l generalizing c with
  | nil => exact h
  | cons w l ih =>
    exact ih (h.write (hl w List.mem_cons_self) w.2) fun v hv => hl v (List.mem_cons_of_mem w hv)

/-- The shared blocks are outside the image. -/
theorem not_inImage_of_inputBase_le (ha : inputBase ≤ a) : ¬s.InImage a := by
  rintro ⟨-, hlt⟩
  have hlen := s.length_image_le
  have hbase : 256 ≤ a.toNat := ha
  omega

end Strategy

/-! ### Progress -/

/-- A bound on the accesses a program makes before it is at the head of its loop. -/
def Point.toLoop : Point → Nat
  | .loop => 0
  | .signalSeqStore _ | .rejectsStore _ | .quoteAsk | .setVersion => 1
  | .signalSeq | .rejects | .quoteBid | .setStatus => 2
  | .status | .rejectStatus _ | .halfSpread _ => 3
  | .signalTick | .skew => 4
  | .signal _ => 5
  | .maxPos _ => 6
  | .enable _ => 7
  | .thresh _ => 8
  | .commit _ => 9
  | .tickSeq2 _ => 10
  | .ask _ => 11
  | .bid _ => 12
  | .tickSeq => 13
  | .storePosition => 14
  | .addFill _ _ => 15
  | .fillQty _ => 16
  | .fillSide => 17
  | .fillSeq => 18
  | .clear i => 9 - i
  | .initFill => 10
  | .initPosition => 11
  | .clearRestart => 12
  | .restart => 19
  | .beat => 20

/-- **Progress of a strategy**: every step but that from `LOOP` comes closer to `LOOP`. -/
theorem Thread.resume_toLoop {s : Strategy} {t : Thread} (h : t.point ≠ .loop) (v : Word) :
    (t.resume s v).point.toLoop < t.point.toLoop := by
  obtain ⟨point, r⟩ := t
  cases point with
  | loop => exact absurd rfl h
  | clear i =>
    simp only [resume]
    split_ifs with hi
    · simp only [Point.toLoop]
      omega
    · simp only [Point.toLoop]
      omega
  | restart =>
    simp only [resume]
    split_ifs <;> exact of_decide_eq_true rfl
  | fillSeq =>
    simp only [resume]
    split_ifs <;> exact of_decide_eq_true rfl
  | tickSeq =>
    simp only [resume]
    split_ifs <;> exact of_decide_eq_true rfl
  | tickSeq2 seq =>
    simp only [resume]
    split_ifs <;> exact of_decide_eq_true rfl
  | commit seq =>
    cases s
    all_goals
      simp only [resume, Strategy.consider, Strategy.setQuotes]
      split_ifs <;> exact of_decide_eq_true rfl
  | thresh sum =>
    simp only [resume, Strategy.bandTest]
    split_ifs <;> exact of_decide_eq_true rfl
  | enable side =>
    simp only [resume]
    split_ifs <;> exact of_decide_eq_true rfl
  | maxPos side =>
    simp only [resume]
    split_ifs <;> exact of_decide_eq_true rfl
  | _ => exact of_decide_eq_true rfl

namespace Strategy

variable {s : Strategy} {c : Cpu}

end Strategy

end Fmma
