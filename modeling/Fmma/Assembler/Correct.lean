import Fmma.Assembler.Encoding
import Fmma.Assembler.Passes

/-!
# Assembly preserves the meaning of the source

The words of an accepted source, run by the CPU, do what its lines say, step by step, until the
image is left or stored into.
-/

namespace Fmma

/-! ### Runs -/

/-- The CPU makes a number of steps. -/
inductive Cpu.StepsIn : ℕ → Cpu → Cpu → Prop
  | refl {c : Cpu} : StepsIn 0 c c
  | tail {n : ℕ} {c d e : Cpu} : StepsIn n c d → d.Steps e → StepsIn (n + 1) c e

namespace Assembler

variable {σ : Type} [DecidableEq σ]

/-- The words are in the RAM. -/
def Placed (base : ℕ) (code : List Word) (mem : Addr → Word) : Prop :=
  ∀ i w, code[i]? = some w → mem (BitVec.ofNat 10 (base + i)) = w

/-- A source runs for a number of steps without changing its own image. -/
inductive SourceRun (base : ℕ) (lines : List (Line σ)) (ρ : σ → Option Int) :
    ℕ → Running → Running → Prop
  | refl {s : Running} : SourceRun base lines ρ 0 s s
  | tail {n : ℕ} {s t u : Running} : SourceRun base lines ρ n s t → t.step base lines ρ = some u →
      (∀ i < (instructions lines).length,
        u.mem (BitVec.ofNat 10 (base + i)) = t.mem (BitVec.ofNat 10 (base + i))) →
      SourceRun base lines ρ (n + 1) s u

/-- The source starts where the CPU does. -/
def Running.start (lines : List (Line σ)) (c : Cpu) : Running where
  regs := c.regs
  flags := c.flags
  mem := c.mem
  place := Running.enter (instructions lines).length 0

/-- The CPU is where the source is. -/
structure Agrees (base : ℕ) (c : Cpu) (s : Running) : Prop where
  regs : c.regs = s.regs
  flags : c.flags = s.flags
  mem : c.mem = s.mem
  pc : ∀ i, s.place = some i → c.pc = BitVec.ofNat 10 (base + i)

/-- An instruction as the syntax has it: it branches to a label, and is no data. -/
def Stmt.Proper (lines : List (Line σ)) : Stmt σ → Prop
  | .equ .. | .word .. => False
  | .branch _ (.sym name) => (labelIndex lines name).isSome = true
  | _ => True

/-- The words preserve the meaning of the source: its names have values, under which no instruction
is stuck, and whatever the source does from its first line on, the CPU does. -/
def Preserves (base : ℕ) (lines : List (Line σ)) (code : List Word) : Prop :=
  ∃ ρ, Meaning base lines ρ ∧
    (∀ (s : Running) (i : ℕ) (stmt : Stmt σ), s.place = some i →
      (instructions lines)[i]? = some stmt → stmt.Proper lines →
      (s.step base lines ρ).isSome = true) ∧
    ∀ c : Cpu, Placed base code c.mem → c.pc = BitVec.ofNat 10 base →
      ∀ n u, SourceRun base lines ρ n (Running.start lines c) u →
        ∃ d, Cpu.StepsIn n c d ∧ Agrees base d u

/-! ### Addresses -/

variable {base len : ℕ} {lines : List (Line σ)}

theorem enter_eq {k j : ℕ} (h : Running.enter len k = some j) : j = k := by
  rw [Running.enter] at h
  split_ifs at h
  exact (Option.some_inj.mp h).symm

theorem locate_eq {a : Addr} {j : ℕ} (h : Running.locate base len a = some j) :
    a = BitVec.ofNat 10 (base + j) := by
  rw [Running.locate] at h
  split_ifs at h with hin
  have hj := Option.some_inj.mp h
  refine BitVec.eq_of_toNat_eq ?_
  have hlt := a.isLt
  rw [BitVec.toNat_ofNat, ← hj]
  omega

theorem ofNat_succ (base i : ℕ) :
    BitVec.ofNat 10 (base + i) + 1 = (BitVec.ofNat 10 (base + (i + 1)) : Addr) := by
  rw [← Nat.add_assoc]
  exact (BitVec.ofNat_add (base + i) 1).symm

theorem condTaken_code (cond : Cond) (z n : Bool) :
    condTaken cond.code z n = cond.taken z n := by
  simp only [condTaken, condByCode_code]

theorem writesResult_some (op : AluOp) : writesResult (some op) = !decide (op = .CMP) := by
  cases op <;> rfl

/-! ### What is encoded -/

theorem value_of_parseValue {symbols : Symbols σ} {v : Operand σ} {x : Int}
    (h : parseValue symbols v = .ok x) :
    v.value (fun name => symbols.lookup name) = some x := by
  cases v with
  | num w =>
    obtain rfl := Except.ok.inj h
    rfl
  | sym name =>
    rw [parseValue] at h
    split at h
    · next w hw =>
      obtain rfl := Except.ok.inj h
      exact hw
    · cases h

/-- What the CPU sees of an instruction. -/
def Shows (base : ℕ) (ρ : σ → Option Int) (i : ℕ) (w : Word) : Stmt σ → Prop
  | .equ .. => False
  | .word v => ∃ x, v.value ρ = some x ∧ w = BitVec.ofInt 32 x
  | .ldi rd imm => ∃ x, imm.value ρ = some x ∧
      decode w = .itype (some .MOV) rd (BitVec.ofInt 32 x)
  | .itype op rd imm => ∃ x, imm.value ρ = some x ∧
      decode w = .itype (some op) rd (BitVec.ofInt 32 x)
  | .rtype op rd rs => decode w = .rtype (some op) rd rs
  | .nop => decode w = .branch Cond.UC.code 1
  | .load rd ra => decode w = .load rd ra
  | .stor rs ra => decode w = .stor rs ra
  | .branch cond (.num disp) => decode w = .branch cond.code disp
  | .branch cond (.sym name) => ∃ x, ρ name = some x ∧
      decode w = .branch cond.code (x - (base + i))
  | .jump cond rt => decode w = .jump cond.code rt

theorem shows_itype {symbols : Symbols σ} {i : ℕ} {w : Word} {op : AluOp} {rd : RegId}
    {imm : Operand σ} (h : encodeItem ⟨.itype op rd imm, i⟩ symbols base = .ok w) :
    ∃ x, imm.value (fun name => symbols.lookup name) = some x ∧
      decode w = .itype (some op) rd (BitVec.ofInt 32 x) := by
  simp only [encodeItem] at h
  cases hv : parseValue symbols imm with
  | error e =>
    rw [hv] at h
    cases h
  | ok x =>
    rw [hv] at h
    simp only [bind, Except.bind] at h
    split_ifs at h
    cases he : encodeItype op rd x with
    | error e =>
      rw [he] at h
      cases h
    | ok w' =>
      rw [he] at h
      obtain rfl := Except.ok.inj h
      exact ⟨x, value_of_parseValue hv, decode_encodeItype he⟩

theorem shows_branch {α : Type} {cond : Cond} {disp : Int} {w : Word}
    (h : (reported (encodeBranch cond disp) : Except (AsmError α) Word) = .ok w) :
    decode w = .branch cond.code disp := by
  cases he : encodeBranch cond disp with
  | error e =>
    rw [he] at h
    cases h
  | ok w' =>
    rw [he] at h
    obtain rfl := Except.ok.inj h
    exact decode_encodeBranch he

/-- **The second pass** encodes what the statement says. -/
theorem shows_of_encodeItem {symbols : Symbols σ} {i : ℕ} {w : Word} {stmt : Stmt σ}
    (h : encodeItem ⟨stmt.expand, i⟩ symbols base = .ok w) :
    Shows base (fun name => symbols.lookup name) i w stmt := by
  cases stmt with
  | equ name value => cases h
  | word v =>
    simp only [Stmt.expand, encodeItem] at h
    cases hv : parseValue symbols v with
    | error e =>
      rw [hv] at h
      cases h
    | ok x =>
      rw [hv] at h
      simp only [bind, Except.bind] at h
      split_ifs at h
      exact ⟨x, value_of_parseValue hv, (Except.ok.inj h).symm⟩
  | ldi rd imm => exact shows_itype h
  | itype op rd imm => exact shows_itype h
  | nop => exact shows_branch h
  | rtype op rd rs =>
    obtain rfl := Except.ok.inj h
    exact decode_encodeRtype op rd rs
  | load rd ra =>
    obtain rfl := Except.ok.inj h
    exact decode_encodeLoad rd ra
  | stor rs ra =>
    obtain rfl := Except.ok.inj h
    exact decode_encodeStor rs ra
  | jump cond rt =>
    obtain rfl := Except.ok.inj h
    exact decode_encodeJump cond rt
  | branch cond target =>
    cases target with
    | num disp => exact shows_branch h
    | sym name =>
      simp only [Stmt.expand, encodeItem] at h
      cases hv : parseValue symbols (.sym name) with
      | error e =>
        rw [hv] at h
        cases h
      | ok x =>
        rw [hv] at h
        exact ⟨x, value_of_parseValue hv, shows_branch h⟩

/-! ### One step -/

variable {ρ : σ → Option Int} {c : Cpu} {s u : Running} {i : ℕ} {stmt : Stmt σ}

/-- A step of the CPU, by what the instruction does. -/
theorem exists_agrees (hd : c.current ≠ .undefined)
    (hregs : (c.toCore.execute c.current c.mem).regs = u.regs)
    (hflags : (c.toCore.execute c.current c.mem).flags = u.flags)
    (hmem : Access.applyOpt c.mem (c.toCore.access c.current) = u.mem)
    (hpc : ∀ j, u.place = some j →
      (c.toCore.execute c.current c.mem).pc = BitVec.ofNat 10 (base + j)) :
    ∃ d, c.Steps d ∧ Agrees base d u := by
  obtain ⟨d, hstep⟩ := Cpu.exists_steps hd
  obtain ⟨hcore, hmem'⟩ := hstep.eq
  refine ⟨d, hstep, ?_, ?_, ?_, ?_⟩
  · rw [hcore, hregs]
  · rw [hcore, hflags]
  · rw [hmem', hmem]
  · rw [hcore]
    exact hpc

/-- An operation of the ALU. -/
theorem agrees_operate (h : Agrees base c s) (hpc : c.pc = BitVec.ofNat 10 (base + i))
    {op : AluOp} {rd : RegId} {b : Word} (hd : c.current ≠ .undefined)
    (hexec : c.toCore.execute c.current c.mem = c.toCore.executeAlu (some op) rd b)
    (haccess : c.toCore.access c.current = none) :
    ∃ d, c.Steps d ∧ Agrees base d (s.operate op rd b (Running.enter len (i + 1))) := by
  refine exists_agrees hd ?_ ?_ ?_ fun j hj => ?_
  · rw [hexec]
    simp only [Core.executeAlu, Running.operate, writesResult_some, h.regs]
    by_cases hop : op = .CMP
    · simp [hop]
    · simp [hop]
  · rw [hexec]
    simp only [Core.executeAlu, Running.operate, h.regs]
  · rw [haccess]
    exact h.mem
  · rw [enter_eq hj, hexec]
    simp only [Core.executeAlu, hpc]
    exact ofNat_succ base i

/-- A branch. -/
theorem agrees_branch (h : Agrees base c s) (hpc : c.pc = BitVec.ofNat 10 (base + i)) {cond : Cond}
    {target : Addr} {place : Option ℕ} (hd : c.current ≠ .undefined)
    (hexec : c.toCore.execute c.current c.mem = c.toCore.branchTo cond.code target)
    (haccess : c.toCore.access c.current = none)
    (htarget : ∀ j, place = some j → target = BitVec.ofNat 10 (base + j)) :
    ∃ d, c.Steps d ∧ Agrees base d (s.branch cond place (Running.enter len (i + 1))) := by
  refine exists_agrees hd ?_ ?_ ?_ fun j hj => ?_
  · rw [hexec]
    exact h.regs
  · rw [hexec]
    exact h.flags
  · rw [haccess]
    exact h.mem
  · rw [hexec]
    simp only [Running.branch] at hj
    simp only [Core.branchTo, condTaken_code, h.flags]
    split_ifs at hj ⊢ with htaken
    · exact htarget j hj
    · rw [enter_eq hj, hpc]
      exact ofNat_succ base i

/-- A data word. -/
theorem agrees_data (h : Agrees base c s) (hpc : c.pc = BitVec.ofNat 10 (base + i))
    (hact : s.data base len (BitVec.ofNat 10 (base + i)) (c.mem c.pc) = some u) :
    ∃ d, c.Steps d ∧ Agrees base d u := by
  have hcore : c.toCore = ⟨s.regs, s.flags, BitVec.ofNat 10 (base + i)⟩ := by
    rw [← h.regs, ← h.flags, ← hpc]
  have hu : c.current ≠ .undefined ∧ u = {
      regs := (c.toCore.execute c.current c.mem).regs
      flags := (c.toCore.execute c.current c.mem).flags
      mem := Access.applyOpt c.mem (c.toCore.access c.current)
      place := Running.locate base len (c.toCore.execute c.current c.mem).pc } := by
    rw [hcore, h.mem]
    simp only [Running.data] at hact
    cases hd : decode (c.mem c.pc) with
    | halt | undefined =>
      rw [hd] at hact
      cases hact
    | _ =>
      rw [hd] at hact
      have hcur : c.current = decode (c.mem c.pc) := rfl
      rw [hcur, hd]
      refine ⟨Decoded.noConfusion, (Option.some_inj.mp hact).symm⟩
  obtain ⟨hd, rfl⟩ := hu
  exact exists_agrees hd rfl rfl rfl fun j hj => locate_eq hj

/-- The address of a branch, which is relative to the branch itself. -/
theorem branch_target (base i : ℕ) (disp : Int) :
    BitVec.ofNat 10 (base + i) + BitVec.ofInt 10 disp =
      (BitVec.ofInt 10 (base + i + disp) : Addr) := by
  rw [BitVec.ofInt_add, ← BitVec.ofInt_natCast 10 (base + i)]
  push_cast
  rfl

/-- **One instruction.** The CPU does what the source does. -/
theorem step_agrees (hρ : Meaning base lines ρ) (h : Agrees base c s) (hplace : s.place = some i)
    (hshows : Shows base ρ i (c.mem c.pc) stmt) (hact : s.act base lines ρ i stmt = some u) :
    ∃ d, c.Steps d ∧ Agrees base d u := by
  have hpc := h.pc i hplace
  have hcur : c.current = decode (c.mem c.pc) := rfl
  cases stmt with
  | equ name value => cases hact
  | word v =>
    obtain ⟨x, hx, hw⟩ := hshows
    simp only [Running.act, hx, Option.bind_some, ← hw] at hact
    exact agrees_data h hpc hact
  | ldi rd imm =>
    obtain ⟨x, hx, hd⟩ := hshows
    simp only [Running.act, hx, Option.map_some] at hact
    obtain rfl := Option.some_inj.mp hact
    refine agrees_operate h hpc ?_ ?_ ?_ <;> rw [hcur, hd]
    · exact Decoded.noConfusion
    · rfl
    · rfl
  | itype op rd imm =>
    obtain ⟨x, hx, hd⟩ := hshows
    simp only [Running.act, hx, Option.map_some] at hact
    obtain rfl := Option.some_inj.mp hact
    refine agrees_operate h hpc ?_ ?_ ?_ <;> rw [hcur, hd]
    · exact Decoded.noConfusion
    · rfl
    · rfl
  | rtype op rd rs =>
    have hd : decode (c.mem c.pc) = .rtype (some op) rd rs := hshows
    obtain rfl := Option.some_inj.mp hact
    refine agrees_operate h hpc ?_ ?_ ?_ <;> rw [hcur, hd]
    · exact Decoded.noConfusion
    · rw [← h.regs]
      rfl
    · rfl
  | nop =>
    -- a branch to the next word, which the CPU takes
    have hd : decode (c.mem c.pc) = .branch Cond.UC.code 1 := hshows
    obtain rfl := Option.some_inj.mp hact
    refine exists_agrees ?_ ?_ ?_ ?_ fun j hj => ?_ <;> rw [hcur, hd]
    · exact Decoded.noConfusion
    · exact h.regs
    · exact h.flags
    · exact h.mem
    · rw [enter_eq hj]
      simp only [Core.execute, Core.branchTo, condTaken_code, Cond.taken, if_true, hpc]
      exact ofNat_succ base i
  | load rd ra =>
    have hd : decode (c.mem c.pc) = .load rd ra := hshows
    obtain rfl := Option.some_inj.mp hact
    refine exists_agrees ?_ ?_ ?_ ?_ fun j hj => ?_ <;> rw [hcur, hd]
    · exact Decoded.noConfusion
    · simp only [Core.execute, Core.addr, h.regs, h.mem]
    · exact h.flags
    · exact h.mem
    · rw [enter_eq hj]
      simp only [Core.execute, hpc]
      exact ofNat_succ base i
  | stor rs ra =>
    have hd : decode (c.mem c.pc) = .stor rs ra := hshows
    obtain rfl := Option.some_inj.mp hact
    refine exists_agrees ?_ ?_ ?_ ?_ fun j hj => ?_ <;> rw [hcur, hd]
    · exact Decoded.noConfusion
    · exact h.regs
    · exact h.flags
    · simp only [Core.access, Core.addr, Access.applyOpt_some, Access.apply_store, h.regs, h.mem]
    · rw [enter_eq hj]
      simp only [Core.execute, hpc]
      exact ofNat_succ base i
  | jump cond rt =>
    have hd : decode (c.mem c.pc) = .jump cond.code rt := hshows
    obtain rfl := Option.some_inj.mp hact
    refine agrees_branch h hpc ?_ ?_ ?_ fun j hj => locate_eq hj <;> rw [hcur, hd]
    · exact Decoded.noConfusion
    · simp only [Core.execute, Core.addr, h.regs]
    · rfl
  | branch cond target =>
    cases target with
    | num disp =>
      have hd : decode (c.mem c.pc) = .branch cond.code disp := hshows
      obtain rfl := Option.some_inj.mp hact
      refine agrees_branch h hpc ?_ ?_ ?_ fun j hj => locate_eq hj <;> rw [hcur, hd]
      · exact Decoded.noConfusion
      · simp only [Core.execute, hpc, branch_target]
      · rfl
    | sym name =>
      -- the displacement is that to the label, wherever the image lies
      obtain ⟨x, hx, hd⟩ := hshows
      simp only [Running.act] at hact
      cases hk : labelIndex lines name with
      | none =>
        rw [hk] at hact
        cases hact
      | some k =>
        rw [hk] at hact
        obtain rfl := Option.some_inj.mp hact
        have hxk : x = (base + k : ℕ) := Option.some_inj.mp (hx.symm.trans (hρ.labels name k hk))
        have hdisp : (base : Int) + i + (x - (base + i)) = (base + k : ℕ) := by
          rw [hxk]
          omega
        have hexec : c.toCore.execute c.current c.mem =
            c.toCore.branchTo cond.code (BitVec.ofNat 10 (base + k)) := by
          rw [hcur, hd]
          simp only [Core.execute, hpc, branch_target, hdisp, BitVec.ofInt_natCast]
        refine agrees_branch h hpc ?_ hexec ?_ fun j hj => ?_
        · rw [hcur, hd]
          exact Decoded.noConfusion
        · rw [hcur, hd]
          rfl
        · rw [enter_eq hj]

/-! ### Whole runs -/

variable {code : List Word}

omit [DecidableEq σ] in
theorem agrees_start (hpc : c.pc = BitVec.ofNat 10 base) :
    Agrees base c (Running.start lines c) := by
  refine ⟨rfl, rfl, rfl, fun i hi => ?_⟩
  rw [enter_eq hi, hpc, Nat.add_zero]

/-- **A run.** While the image is left alone, the CPU does what the source does. -/
theorem run_agrees {n : ℕ} (hρ : Meaning base lines ρ)
    (hcode : ∀ i stmt, (instructions lines)[i]? = some stmt →
      ∃ w, code[i]? = some w ∧ Shows base ρ i w stmt)
    (hlen : code.length = (instructions lines).length) (hplaced : Placed base code c.mem)
    (hagree : Agrees base c s) (hrun : SourceRun base lines ρ n s u) :
    ∃ d, Cpu.StepsIn n c d ∧ Agrees base d u ∧ Placed base code d.mem := by
  induction hrun with
  | refl => exact ⟨c, .refl, hagree, hplaced⟩
  | @tail n s t u hrun hstep hkept ih =>
    obtain ⟨d, hd, hdt, hdplaced⟩ := ih hagree
    obtain ⟨i, hplace, hi⟩ := Option.bind_eq_some_iff.mp hstep
    obtain ⟨stmt, hstmt, hact⟩ := Option.bind_eq_some_iff.mp hi
    obtain ⟨w, hw, hshows⟩ := hcode i stmt hstmt
    have hword : d.mem d.pc = w := by
      rw [hdt.pc i hplace]
      exact hdplaced i w hw
    obtain ⟨e, he, heu⟩ := step_agrees hρ hdt hplace (hword ▸ hshows) hact
    refine ⟨e, .tail hd he, heu, fun k v hk => ?_⟩
    have hlt : k < (instructions lines).length := hlen ▸ (List.getElem?_eq_some_iff.mp hk).1
    rw [heu.mem, hkept k hlt, ← hdt.mem]
    exact hdplaced k v hk

/-- No instruction of the syntax is stuck. -/
theorem isSome_act (hshows : ∃ w, Shows base ρ i w stmt) (hproper : stmt.Proper lines) :
    (s.act base lines ρ i stmt).isSome = true := by
  obtain ⟨w, hshows⟩ := hshows
  cases stmt with
  | equ name value => exact hproper.elim
  | word v => exact hproper.elim
  | ldi rd imm | itype op rd imm =>
    obtain ⟨x, hx, -⟩ := hshows
    simp only [Running.act, hx, Option.map_some, Option.isSome_some]
  | branch cond target =>
    cases target with
    | num disp => rfl
    | sym name =>
      rw [Running.act, Option.isSome_map]
      exact hproper
  | rtype op rd rs | nop | load rd ra | stor rs ra | jump cond rt => rfl

end Assembler

open Assembler

/-- **Assembly preserves the meaning of the source** just when no name stands for two values. -/
theorem assembly_preserves {σ : Type} [DecidableEq σ] (base : ℕ) (lines : List (Line σ))
    (code : List Word) (h : assemble lines base = .ok code) :
    Preserves base lines code ↔ Unambiguous base lines := by
  constructor
  · rintro ⟨ρ, hρ, -⟩
    exact hρ.unambiguous
  · intro hone
    obtain ⟨symbols, items, hres, hlen, hitem⟩ := assemble_spec h
    have hρ := hres.meaning hone
    have hcode : ∀ i stmt, (instructions lines)[i]? = some stmt →
        ∃ w, code[i]? = some w ∧ Shows base (fun name => symbols.lookup name) i w stmt := by
      intro i stmt hi
      obtain ⟨w, hw, hencode⟩ := hitem i stmt hi
      exact ⟨w, hw, shows_of_encodeItem hencode⟩
    refine ⟨_, hρ, ?_, ?_⟩
    · intro s i stmt hplace hi hproper
      obtain ⟨w, -, hshows⟩ := hcode i stmt hi
      rw [Running.step, hplace, Option.bind_some, hi, Option.bind_some]
      exact isSome_act ⟨w, hshows⟩ hproper
    · intro c hplaced hpc n u hrun
      obtain ⟨d, hd, hdu, -⟩ := run_agrees hρ hcode hlen hplaced (agrees_start hpc) hrun
      exact ⟨d, hd, hdu⟩

/-- A loop: a labelled load, and a branch back to it. -/
def Assembler.loopLines : List (Line ℕ) :=
  [⟨[0], some (.ldi 1 (.num 5))⟩, ⟨[], some (.branch .UC (.sym 0))⟩]

theorem Assembler.unambiguous_loopLines : Unambiguous 8 loopLines := by
  have hdefines : ∀ name v, ¬Defines loopLines name v := by
    intro name v
    simp [Defines, loopLines]
  have hlabel : ∀ name k, labelIndex loopLines name = some k → k = 0 := by
    intro name k hk
    simp only [loopLines, labelIndex] at hk
    split_ifs at hk with hname hnil
    · exact (Option.some_inj.mp hk).symm
    · exact absurd hnil List.not_mem_nil
    · cases hk
  have hmeans : ∀ name v, Means 8 loopLines name v → v = 8 := by
    intro name v hm
    cases hm with
    | label hk => rw [hlabel _ _ hk]; rfl
    | num hd => exact absurd hd (hdefines _ _)
    | sym hd _ => exact absurd hd (hdefines _ _)
  intro name v w hv hw
  rw [hmeans name v hv, hmeans name w hw]

theorem assembly_preserves_loop : ∃ code, assemble loopLines 8 = .ok code ∧
    Preserves 8 loopLines code := by
  have h : assemble loopLines 8 = .ok [0x0000F105, 0x0000CEFF] := by decide
  exact ⟨_, h, (assembly_preserves 8 loopLines _ h).mpr unambiguous_loopLines⟩

/-- A constant may take the name of a label that is still pending. -/
def Assembler.renamedLines : List (Line ℕ) :=
  [⟨[0], some (.equ 0 (.num 5))⟩, ⟨[], some (.ldi 0 (.sym 0))⟩]

theorem not_assembly_preserves : ¬∀ (base : ℕ) (lines : List (Line ℕ)) (code : List Word),
    assemble lines base = .ok code → base + code.length ≤ 1024 → Preserves base lines code := by
  intro hall
  have h : assemble renamedLines 8 = .ok [0x0000F008] := by decide
  obtain ⟨ρ, hρ, -⟩ := hall 8 renamedLines _ h (by decide)
  have hlabel : ρ 0 = some 8 := hρ.labels 0 0 rfl
  have hconstant : ρ 0 = some 5 := (hρ.constants 0 (.num 5) ⟨_, List.mem_cons_self, rfl⟩).1
  rw [hlabel] at hconstant
  exact absurd (Option.some_inj.mp hconstant) (by decide)

end Fmma
