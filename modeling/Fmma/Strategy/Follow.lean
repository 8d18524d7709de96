import Fmma.Strategy.Layout
import Mathlib.Tactic.FinCases

/-!
# The programs follow the strategies

At every point, the CPU makes the strategy's access and goes on to the strategy's next point.
The theorems follow the listing: `follows_load`, `follows_stor` or `follows_stop` executes the
instruction at the point, one rule after the other the quiet instructions behind it, and
`corr_of_holds` compares what is known in the end with what the next point fixes. Both programs
are done in one go, since they differ in word indices only, except where each considers a tick.
-/

namespace Fmma

namespace Strategy

variable {s : Strategy} {t : Thread} {c : Core} {mem : Addr → Word} {x : Word}

set_option maxRecDepth 4000

/-! ### Start-up -/

/-- **Boot.** From `PROGRAM_BASE` the CPU is on its way to the strategy's first point, whatever
the registers and the flags hold. -/
theorem exec_initial (r : Regs) :
    s.Exec ([(5, r.bid), (6, r.ask), (13, r.position), (14, r.fill)] : Pins)
      programBase (s.Corr (Thread.initial s r)) := by
  cases s
  all_goals
    simp only [programBase]
    repeat' first
      | (refine exec_movi rfl rfl ?_; simp only [BitVec.reduceAdd])
      | (refine exec_zero rfl rfl ?_; simp only [BitVec.reduceAdd])
      | refine exec_end rfl (fun r f hr => ?_)
    exact corr_of_holds hr trivial rfl (by repeat' first | rfl | constructor)

/-- The boot lemma for the registers as they are. -/
theorem sim_initial (s : Strategy) (c : Core) (hpc : c.pc = programBase) :
    s.Sim (Thread.initial s ⟨c.regs 5, c.regs 6, 0, c.regs 10, 0, 0, c.regs 13, c.regs 14⟩) c := by
  obtain ⟨r, f, p⟩ := c
  cases hpc
  refine exec_initial _ r f ?_
  exact Pins.holds_of_forall (by simp)

/-- `INIT` adopts the position and the fill counter. -/
theorem follows_init (hp : t.point = .initPosition ∨ t.point = .initFill) (h : s.Corr t c) :
    s.Follows t c mem := by
  obtain ⟨point, regs⟩ := t
  dsimp only at hp
  obtain rfl | rfl := hp
  all_goals cases s
  all_goals
    refine follows_load h rfl rfl rfl ?_
    simp only [pcOf, pick, BitVec.reduceAdd]
    repeat' first
      | (refine exec_movi rfl rfl ?_; simp only [BitVec.reduceAdd])
      | (refine exec_zero rfl rfl ?_; simp only [BitVec.reduceAdd])
      | refine exec_end rfl (fun r f hr => ?_)
    all_goals exact corr_of_holds hr trivial rfl (by repeat' first | rfl | constructor)

/-- `INIT` writes the output words. -/
theorem follows_clear {i : Fin 7} (hp : t.point = .clear i) (h : s.Corr t c) :
    s.Follows t c mem := by
  obtain ⟨point, regs⟩ := t
  dsimp only at hp
  subst hp
  fin_cases i
  all_goals cases s
  all_goals
    first
      | refine follows_load h rfl rfl rfl ?_
      | refine follows_stor h rfl rfl rfl rfl ?_
    simp only [pcOf, pick, Nat.reduceMul, BitVec.reduceAdd]
    repeat' first
      | (refine exec_movi rfl rfl ?_; simp only [BitVec.reduceAdd])
      | refine exec_end rfl (fun r f hr => ?_)
    all_goals exact corr_of_holds hr trivial rfl (by repeat' first | rfl | constructor)

/-- `INIT` publishes its status; the probes of the datapath pass, and it publishes the
version. -/
theorem follows_declare (hp : t.point = .setStatus ∨ t.point = .setVersion) (h : s.Corr t c) :
    s.Follows t c mem := by
  obtain ⟨point, regs⟩ := t
  dsimp only at hp
  obtain rfl | rfl := hp
  all_goals cases s
  all_goals
    first
      | refine follows_load h rfl rfl rfl ?_
      | refine follows_stor h rfl rfl rfl rfl ?_
    simp only [pcOf, pick, BitVec.reduceAdd]
    repeat' first
      | (refine exec_beq rfl rfl rfl rfl rfl rfl (fun hb => ?_) (fun hb => ?_)
         <;> simp only [BitVec.reduceAdd, BitVec.reduceOfInt])
      | (refine exec_bne rfl rfl rfl rfl rfl rfl (fun hb => ?_) (fun hb => ?_)
         <;> simp only [BitVec.reduceAdd, BitVec.reduceOfInt])
      | (refine exec_movi rfl rfl ?_; simp only [BitVec.reduceAdd])
      | (refine exec_rtype rfl rfl rfl rfl rfl ?_
         simp only [BitVec.reduceAdd, alu_add_fst])
      | (refine exec_itype rfl rfl rfl rfl ?_
         simp only [BitVec.reduceAdd, BitVec.reduceSub, alu_sub_fst, alu_lsh_31_fst])
      | exact absurd hb (by decide)
      | refine exec_end rfl (fun r f hr => ?_)
    all_goals exact corr_of_holds hr trivial rfl (by repeat' first | rfl | constructor)

/-! ### The main loop -/

/-- The head of the loop. -/
theorem follows_loop (hp : t.point = .loop ∨ t.point = .beat ∨ t.point = .restart)
    (h : s.Corr t c) : s.Follows t c mem := by
  obtain ⟨point, regs⟩ := t
  dsimp only at hp
  obtain rfl | rfl | rfl := hp
  all_goals cases s
  all_goals
    first
      | refine follows_load h rfl rfl rfl ?_
      | refine follows_stor h rfl rfl rfl rfl ?_
      | refine follows_stop h rfl rfl rfl rfl rfl ?_
    simp only [pcOf, pick, BitVec.reduceAdd]
    repeat' first
      | (refine exec_bne rfl rfl rfl rfl rfl rfl (fun hb => ?_) (fun hb => ?_)
         <;> simp only [BitVec.reduceAdd, BitVec.reduceOfInt])
      | (refine exec_movi rfl rfl ?_; simp only [BitVec.reduceAdd])
      | (refine exec_zero rfl rfl ?_; simp only [BitVec.reduceAdd])
      | (refine exec_rtype rfl rfl rfl rfl rfl ?_
         simp only [BitVec.reduceAdd, alu_add_fst])
      | refine exec_end rfl (fun r f hr => ?_)
    all_goals
      simp only [Thread.resume]
      try split_ifs
      all_goals first
        | contradiction
        | exact corr_of_holds hr trivial rfl (by repeat' first | rfl | constructor)

/-- A restart request goes back to `INIT`. -/
theorem follows_clearRestart (hp : t.point = .clearRestart) (h : s.Corr t c) :
    s.Follows t c mem := by
  obtain ⟨point, regs⟩ := t
  dsimp only at hp
  subst hp
  cases s
  all_goals
    refine follows_stor h rfl rfl rfl rfl ?_
    simp only [pcOf, pick, BitVec.reduceAdd]
    refine exec_movi rfl rfl ?_
    simp only [BitVec.reduceAdd]
    refine exec_juc programBase rfl rfl rfl ?_
    refine (exec_initial regs).mono (by repeat' first | rfl | constructor)

/-- The fill mailbox. -/
theorem follows_fill (hp : t.point = .fillSeq ∨ t.point = .fillSide ∨ t.point = .storePosition)
    (h : s.Corr t c) : s.Follows t c mem := by
  obtain ⟨point, regs⟩ := t
  dsimp only at hp
  obtain rfl | rfl | rfl := hp
  all_goals cases s
  all_goals
    first
      | refine follows_load h rfl rfl rfl ?_
      | refine follows_stor h rfl rfl rfl rfl ?_
    simp only [pcOf, pick, BitVec.reduceAdd]
    repeat' first
      | (refine exec_beq rfl rfl rfl rfl rfl rfl (fun hb => ?_) (fun hb => ?_)
         <;> simp only [BitVec.reduceAdd, BitVec.reduceOfInt])
      | (refine exec_movi rfl rfl ?_; simp only [BitVec.reduceAdd])
      | (refine exec_mov rfl rfl rfl ?_; simp only [BitVec.reduceAdd])
      | refine exec_end rfl (fun r f hr => ?_)
    all_goals
      simp only [Thread.resume]
      try split_ifs
      all_goals first
        | contradiction
        | exact corr_of_holds hr trivial rfl (by repeat' first | rfl | constructor)

/-- The side of a fill decides between the addition and the subtraction. -/
theorem follows_fillQty (hp : t.point = .fillQty x) (h : s.Corr t c) : s.Follows t c mem := by
  obtain ⟨point, regs⟩ := t
  dsimp only at hp
  subst hp
  all_goals cases s
  all_goals
    refine follows_load h rfl rfl rfl ?_
    simp only [pcOf, pick, BitVec.reduceAdd]
    repeat' first
      | (refine exec_bne rfl rfl rfl rfl rfl rfl (fun hb => ?_) (fun hb => ?_)
         <;> simp only [BitVec.reduceAdd, BitVec.reduceOfInt])
      | refine exec_end rfl (fun r f hr => ?_)
    all_goals
      simp only [Thread.resume, hb, beq_self_eq_true, fillBought, beq_false_of_ne, ne_eq,
        not_false_eq_true]
      all_goals first
        | contradiction
        | exact corr_of_holds hr trivial rfl (by repeat' first | rfl | constructor)

/-- A fill is applied. -/
theorem follows_addFill {bought : Bool} (hp : t.point = .addFill bought x) (h : s.Corr t c) :
    s.Follows t c mem := by
  obtain ⟨point, regs⟩ := t
  dsimp only at hp
  subst hp
  cases bought
  all_goals cases s
  all_goals
    first
      | refine follows_load h rfl rfl rfl ?_
      | refine follows_stor h rfl rfl rfl rfl ?_
      | refine follows_stop h rfl rfl rfl rfl rfl ?_
    simp only [pcOf, pick, BitVec.reduceAdd]
    repeat' first
      | (refine exec_movi rfl rfl ?_; simp only [BitVec.reduceAdd])
      | (refine exec_buc rfl rfl ?_; simp only [BitVec.reduceAdd, BitVec.reduceOfInt])
      | refine exec_end rfl (fun r f hr => ?_)
    all_goals exact corr_of_holds hr trivial rfl (by repeat' first | rfl | constructor)

/-- The seqlock read. -/
theorem follows_tick
    (hp : t.point = .tickSeq ∨ t.point = .bid x ∨ t.point = .ask x ∨ t.point = .tickSeq2 x)
    (h : s.Corr t c) : s.Follows t c mem := by
  obtain ⟨point, regs⟩ := t
  dsimp only at hp
  obtain rfl | rfl | rfl | rfl := hp
  all_goals cases s
  all_goals
    refine follows_load h rfl rfl rfl ?_
    simp only [pcOf, pick, BitVec.reduceAdd]
    repeat' first
      | (refine exec_beq rfl rfl rfl rfl rfl rfl (fun hb => ?_) (fun hb => ?_)
         <;> simp only [BitVec.reduceAdd, BitVec.reduceOfInt])
      | (refine exec_bne rfl rfl rfl rfl rfl rfl (fun hb => ?_) (fun hb => ?_)
         <;> simp only [BitVec.reduceAdd, BitVec.reduceOfInt])
      | (refine exec_mov rfl rfl rfl ?_; simp only [BitVec.reduceAdd])
      | (refine exec_rtype rfl rfl rfl rfl rfl ?_
         simp only [BitVec.reduceAdd, alu_add_fst, alu_and_fst])
      | refine exec_end rfl (fun r f hr => ?_)
    all_goals
      simp only [Thread.resume]
      try split_ifs
      all_goals first
        | contradiction
        | exact corr_of_holds hr trivial rfl (by repeat' first | rfl | constructor)

/-! ### The strategies -/

/-- A tick is committed and considered. -/
theorem follows_commit (hp : t.point = .commit x) (h : s.Corr t c) : s.Follows t c mem := by
  obtain ⟨point, regs⟩ := t
  dsimp only at hp
  subst hp
  all_goals cases s
  all_goals
    first
      | refine follows_load h rfl rfl rfl ?_
      | refine follows_stor h rfl rfl rfl rfl ?_
      | refine follows_stop h rfl rfl rfl rfl rfl ?_
    simp only [pcOf, pick, BitVec.reduceAdd]
    repeat' first
      | (refine exec_beq rfl rfl rfl rfl rfl rfl (fun hb => ?_) (fun hb => ?_)
         <;> simp only [BitVec.reduceAdd, BitVec.reduceOfInt])
      | (refine exec_bge rfl rfl rfl rfl rfl rfl (fun hb => ?_) (fun hb => ?_)
         <;> simp only [BitVec.reduceAdd, BitVec.reduceOfInt])
      | (refine exec_movi rfl rfl ?_; simp only [BitVec.reduceAdd])
      | (refine exec_mov rfl rfl rfl ?_; simp only [BitVec.reduceAdd])
      | (refine exec_rtype rfl rfl rfl rfl rfl ?_
         simp only [BitVec.reduceAdd, alu_add_fst])
      | (refine exec_juc (loopAt _) rfl rfl rfl ?_; simp only [loopAt, pick])
      | refine exec_end rfl (fun r f hr => ?_)
    all_goals
      simp only [Thread.resume, consider, setQuotes]
      split_ifs
      all_goals first
        | contradiction
        | exact corr_of_holds hr trivial rfl (by repeat' first | rfl | constructor)

/-- `trading.asm`: the band around the anchor. -/
theorem follows_thresh (hp : t.point = .thresh x) (h : s.Corr t c) : s.Follows t c mem := by
  obtain ⟨point, regs⟩ := t
  dsimp only at hp
  subst hp
  cases s
  case marketMaker => exact h.has.elim
  all_goals
    refine follows_load h rfl rfl rfl ?_
    simp only [pcOf, pick, BitVec.reduceAdd]
    repeat' first
      | (refine exec_blt rfl rfl rfl rfl rfl rfl (fun hb => ?_) (fun hb => ?_)
         <;> simp only [BitVec.reduceAdd, BitVec.reduceOfInt])
      | (refine exec_movi rfl rfl ?_; simp only [BitVec.reduceAdd])
      | (refine exec_mov rfl rfl rfl ?_; simp only [BitVec.reduceAdd])
      | (refine exec_rtype rfl rfl rfl rfl rfl ?_
         simp only [BitVec.reduceAdd, alu_add_fst, alu_sub_fst])
      | (refine exec_juc (loopAt _) rfl rfl rfl ?_; simp only [loopAt, pick])
      | refine exec_end rfl (fun r f hr => ?_)
    all_goals
      simp only [Thread.resume, bandTest]
      split_ifs
      all_goals first
        | contradiction
        | exact corr_of_holds hr trivial rfl (by repeat' first | rfl | constructor)

/-- `market_maker.asm`: the quotes. -/
theorem follows_quote
    (hp : t.point = .skew ∨ t.point = .halfSpread x ∨ t.point = .quoteBid ∨ t.point = .quoteAsk)
    (h : s.Corr t c) : s.Follows t c mem := by
  obtain ⟨point, regs⟩ := t
  dsimp only at hp
  obtain rfl | rfl | rfl | rfl := hp
  all_goals cases s
  all_goals try exact h.has.elim
  all_goals
    first
      | refine follows_load h rfl rfl rfl ?_
      | refine follows_stor h rfl rfl rfl rfl ?_
    simp only [pcOf, pick, BitVec.reduceAdd]
    repeat' first
      | (refine exec_movi rfl rfl ?_; simp only [BitVec.reduceAdd])
      | (refine exec_mov rfl rfl rfl ?_; simp only [BitVec.reduceAdd])
      | (refine exec_rtype rfl rfl rfl rfl rfl ?_
         simp only [BitVec.reduceAdd, alu_add_fst, alu_sub_fst, alu_mul_fst])
      | (refine exec_itype rfl rfl rfl rfl ?_
         simp only [BitVec.reduceAdd, alu_lsh_31_fst])
      | (refine exec_juc (loopAt _) rfl rfl rfl ?_; simp only [loopAt, pick])
      | refine exec_end rfl (fun r f hr => ?_)
    all_goals exact corr_of_holds hr trivial rfl (by repeat' first | rfl | constructor)

/-! ### Decisions -/

/-- The kill switch. -/
theorem follows_enable {side : Side} (hp : t.point = .enable side) (h : s.Corr t c) :
    s.Follows t c mem := by
  obtain ⟨point, regs⟩ := t
  dsimp only at hp
  subst hp
  all_goals cases side
  all_goals cases s
  all_goals
    refine follows_load h rfl rfl rfl ?_
    simp only [pcOf, pick, BitVec.reduceAdd]
    repeat' first
      | (refine exec_beq rfl rfl rfl rfl rfl rfl (fun hb => ?_) (fun hb => ?_)
         <;> simp only [BitVec.reduceAdd, BitVec.reduceOfInt])
      | (refine exec_movi rfl rfl ?_; simp only [BitVec.reduceAdd])
      | (refine exec_rtype rfl rfl rfl rfl rfl ?_
         simp only [BitVec.reduceAdd, alu_add_fst])
      | refine exec_end rfl (fun r f hr => ?_)
    all_goals
      simp only [Thread.resume]
      split_ifs
      all_goals first
        | contradiction
        | exact corr_of_holds hr trivial rfl (by repeat' first | rfl | constructor)

/-- The position limit. -/
theorem follows_maxPos {side : Side} (hp : t.point = .maxPos side) (h : s.Corr t c) :
    s.Follows t c mem := by
  obtain ⟨point, regs⟩ := t
  dsimp only at hp
  subst hp
  all_goals cases side
  all_goals cases s
  all_goals
    refine follows_load h rfl rfl rfl ?_
    simp only [pcOf, pick, BitVec.reduceAdd]
    repeat' first
      | (refine exec_blt rfl rfl rfl rfl rfl rfl (fun hb => ?_) (fun hb => ?_)
         <;> simp only [BitVec.reduceAdd, BitVec.reduceOfInt])
      | (refine exec_movi rfl rfl ?_; simp only [BitVec.reduceAdd])
      | (refine exec_zero rfl rfl ?_; simp only [BitVec.reduceAdd])
      | (refine exec_rtype rfl rfl rfl rfl rfl ?_
         simp only [BitVec.reduceAdd, alu_add_fst, alu_sub_fst])
      | (refine exec_buc rfl rfl ?_; simp only [BitVec.reduceAdd, BitVec.reduceOfInt])
      | refine exec_end rfl (fun r f hr => ?_)
    all_goals
      simp only [Thread.resume, allowed, decide_eq_true_eq]
      split_ifs
      all_goals first
        | contradiction
        | exact corr_of_holds hr trivial rfl (by repeat' first | rfl | constructor)

/-- A decision is published. -/
theorem follows_emit (side : Side)
    (hp : t.point = .signal side ∨ t.point = .signalTick ∨ t.point = .status ∨
      t.point = .signalSeq ∨ t.point = .signalSeqStore x)
    (h : s.Corr t c) : s.Follows t c mem := by
  obtain ⟨point, regs⟩ := t
  dsimp only at hp
  obtain rfl | rfl | rfl | rfl | rfl := hp
  all_goals cases s
  all_goals
    first
      | refine follows_load h rfl rfl rfl ?_
      | refine follows_stor h rfl rfl rfl rfl ?_
    simp only [pcOf, pick, BitVec.reduceAdd]
    repeat' first
      | (refine exec_movi rfl rfl ?_; simp only [BitVec.reduceAdd])
      | (refine exec_rtype rfl rfl rfl rfl rfl ?_
         simp only [BitVec.reduceAdd, alu_add_fst])
      | (refine exec_juc (loopAt _) rfl rfl rfl ?_; simp only [loopAt, pick])
      | refine exec_end rfl (fun r f hr => ?_)
    all_goals exact corr_of_holds hr trivial rfl (by repeat' first | rfl | constructor)

/-- A decision is suppressed. -/
theorem follows_reject
    (hp : t.point = .rejectStatus x ∨ t.point = .rejects ∨ t.point = .rejectsStore x)
    (h : s.Corr t c) : s.Follows t c mem := by
  obtain ⟨point, regs⟩ := t
  dsimp only at hp
  obtain rfl | rfl | rfl := hp
  all_goals cases s
  all_goals
    first
      | refine follows_load h rfl rfl rfl ?_
      | refine follows_stor h rfl rfl rfl rfl ?_
    simp only [pcOf, pick, BitVec.reduceAdd]
    repeat' first
      | (refine exec_movi rfl rfl ?_; simp only [BitVec.reduceAdd])
      | (refine exec_rtype rfl rfl rfl rfl rfl ?_
         simp only [BitVec.reduceAdd, alu_add_fst])
      | (refine exec_juc (loopAt _) rfl rfl rfl ?_; simp only [loopAt, pick])
      | refine exec_end rfl (fun r f hr => ?_)
    all_goals exact corr_of_holds hr trivial rfl (by repeat' first | rfl | constructor)

/-- **The program follows the strategy**, from every point. -/
theorem Corr.follows (mem : Addr → Word) (h : s.Corr t c) : s.Follows t c mem := by
  cases hp : t.point with
  | initPosition => exact follows_init (.inl hp) h
  | initFill => exact follows_init (.inr hp) h
  | clear i => exact follows_clear hp h
  | setStatus => exact follows_declare (.inl hp) h
  | setVersion => exact follows_declare (.inr hp) h
  | loop => exact follows_loop (.inl hp) h
  | beat => exact follows_loop (.inr (.inl hp)) h
  | restart => exact follows_loop (.inr (.inr hp)) h
  | clearRestart => exact follows_clearRestart hp h
  | fillSeq => exact follows_fill (.inl hp) h
  | fillSide => exact follows_fill (.inr (.inl hp)) h
  | fillQty _ => exact follows_fillQty hp h
  | addFill _ _ => exact follows_addFill hp h
  | storePosition => exact follows_fill (.inr (.inr hp)) h
  | tickSeq => exact follows_tick (x := 0) (.inl hp) h
  | bid _ => exact follows_tick (.inr (.inl hp)) h
  | ask _ => exact follows_tick (.inr (.inr (.inl hp))) h
  | tickSeq2 _ => exact follows_tick (.inr (.inr (.inr hp))) h
  | commit _ => exact follows_commit hp h
  | thresh _ => exact follows_thresh hp h
  | skew => exact follows_quote (x := 0) (.inl hp) h
  | halfSpread _ => exact follows_quote (.inr (.inl hp)) h
  | quoteBid => exact follows_quote (x := 0) (.inr (.inr (.inl hp))) h
  | quoteAsk => exact follows_quote (x := 0) (.inr (.inr (.inr hp))) h
  | enable _ => exact follows_enable hp h
  | maxPos _ => exact follows_maxPos hp h
  | signal _ => exact follows_emit _ (x := 0) (.inl hp) h
  | signalTick => exact follows_emit .buy (x := 0) (.inr (.inl hp)) h
  | status => exact follows_emit .buy (x := 0) (.inr (.inr (.inl hp))) h
  | signalSeq => exact follows_emit .buy (x := 0) (.inr (.inr (.inr (.inl hp)))) h
  | signalSeqStore _ => exact follows_emit .buy (.inr (.inr (.inr (.inr hp)))) h
  | rejectStatus _ => exact follows_reject (.inl hp) h
  | rejects => exact follows_reject (x := 0) (.inr (.inl hp)) h
  | rejectsStore _ => exact follows_reject (.inr (.inr hp)) h

end Strategy

end Fmma
