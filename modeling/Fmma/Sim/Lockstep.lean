import Fmma.Sim
import Mathlib.Data.List.Basic

/-!
# Two runs of one program

`Facts` say what two runs of a program agree on at one word of it: some registers, perhaps the
flags, and a few registers with known values. `Facts.after` is what they agree on after one
instruction, if all it reads is agreed on. `explore` follows every path of a program up to its
*cut points*, words with facts of their own; when it succeeds from every cut point, two runs that
begin at one stay in step (`Lockstep`): same PCs, same accesses.

The program is any assignment of instructions to words, and no run of it is followed here.
-/

namespace Fmma

/-- What two runs agree on: registers, the flags, and registers with a known value. -/
structure Facts where
  regs : List RegId
  flags : Bool
  consts : List (RegId × Word)

namespace Facts

/-- A register is written with a value both runs agree on. -/
def write (k : Facts) (rd : RegId) : Facts where
  regs := rd :: k.regs
  flags := k.flags
  consts := k.consts.filter fun p => p.1 ≠ rd

/-- A register is written with a known value. -/
def writeConst (k : Facts) (rd : RegId) (v : Word) : Facts :=
  { k.write rd with consts := (rd, v) :: (k.write rd).consts }

/-- The flags are written with values both runs agree on. -/
def setFlags (k : Facts) : Facts := { k with flags := true }

/-- After an ALU operation on a register. -/
def afterAlu (k : Facts) (op : Option AluOp) (rd : RegId) : Facts :=
  if writesResult op then (k.write rd).setFlags else k.setFlags

/-- Whether a branch with this condition reads no flags or agreed ones. -/
def decides (k : Facts) (cond : BitVec 4) : Bool := k.flags || cond == Cond.UC.code

/-- What two runs agree on after an instruction, if they agree on what it reads. -/
def after (k : Facts) : Decoded → Option Facts
  | .rtype op rd rs =>
    if op = some .XOR ∧ rd = rs then some (k.write rd).setFlags
    else if rs ∈ k.regs ∧ (op = some .MOV ∨ rd ∈ k.regs) then some (k.afterAlu op rd)
    else none
  | .itype op rd imm =>
    if op = some .MOV then some (k.writeConst rd imm).setFlags
    else if rd ∈ k.regs then some (k.afterAlu op rd)
    else none
  | .load rd ra => if ra ∈ k.regs then some (k.write rd) else none
  | .stor rs ra => if rs ∈ k.regs ∧ ra ∈ k.regs then some k else none
  | .branch cond _ => if k.decides cond then some k else none
  | .jump cond _ => if k.decides cond then some k else none
  | .halt => none
  | .undefined => none

/-- Where a branch or jump may go. -/
def targets (p : Addr) (cond : BitVec 4) (target : Addr) : List Addr :=
  if cond = Cond.UC.code then [target] else [target, p + 1]

/-- Where an instruction at word `p` may go; a jump's register has to be known. -/
def next (k : Facts) (p : Addr) : Decoded → Option (List Addr)
  | .branch cond disp => some (targets p cond (p + BitVec.ofInt 10 disp))
  | .jump cond rt => (k.consts.lookup rt).map fun v => targets p cond (v.setWidth 10)
  | _ => some [p + 1]

/-- More is agreed on. -/
def Implies (k k' : Facts) : Bool :=
  (k'.regs.all fun r => decide (r ∈ k.regs)) && (!k'.flags || k.flags) &&
    k'.consts.all fun p => k.consts.lookup p.1 == some p.2

/-- The runs are at the same word and agree on the facts. -/
structure Agree (k : Facts) (c d : Core) : Prop where
  pc : c.pc = d.pc
  regs : ∀ r ∈ k.regs, c.regs r = d.regs r
  flags : k.flags = true → c.flags = d.flags
  consts : ∀ p ∈ k.consts, c.regs p.1 = p.2 ∧ d.regs p.1 = p.2

variable {k k' : Facts} {c d : Core} {rd : RegId} {v : Word}

theorem mem_of_lookup {r : RegId} (h : k.consts.lookup r = some v) : (r, v) ∈ k.consts := by
  obtain ⟨l₁, l₂, hl, -⟩ := List.lookup_eq_some_iff.mp h
  rw [hl]
  exact List.mem_append_right _ List.mem_cons_self

/-- Agreeing on more. -/
theorem Agree.of_implies (h : k.Agree c d) (hk : k.Implies k' = true) : k'.Agree c d := by
  simp only [Implies, Bool.and_eq_true, List.all_eq_true, decide_eq_true_eq, Bool.or_eq_true,
    Bool.not_eq_true', beq_iff_eq] at hk
  obtain ⟨⟨hregs, hflags⟩, hconsts⟩ := hk
  refine ⟨h.pc, fun r hr => h.regs r (hregs r hr), fun hf => h.flags ?_, fun p hp => ?_⟩
  · rcases hflags with hno | hyes
    · rw [hno] at hf
      cases hf
    · exact hyes
  · exact h.consts p (mem_of_lookup (hconsts p hp))

/-- Both runs write the same value to a register. -/
theorem Agree.write (h : k.Agree c d) (rd : RegId) (v : Word) (p : Addr) :
    (k.write rd).Agree ⟨Function.update c.regs rd v, c.flags, p⟩
      ⟨Function.update d.regs rd v, d.flags, p⟩ := by
  refine ⟨rfl, fun r hr => ?_, h.flags, fun q hq => ?_⟩
  · change Function.update c.regs rd v r = Function.update d.regs rd v r
    by_cases heq : r = rd
    · rw [heq, Function.update_self, Function.update_self]
    · rw [Function.update_of_ne heq, Function.update_of_ne heq]
      exact h.regs r ((List.mem_cons.mp hr).resolve_left heq)
  · obtain ⟨hmem, hne⟩ := List.mem_filter.mp hq
    have hne : q.1 ≠ rd := of_decide_eq_true hne
    simp only
    rw [Function.update_of_ne hne, Function.update_of_ne hne]
    exact h.consts q hmem

/-- Both runs set the flags alike. -/
theorem Agree.setFlags (h : k.Agree c d) (f : Flags) :
    k.setFlags.Agree { c with flags := f } { d with flags := f } :=
  ⟨h.pc, h.regs, fun _ => rfl, h.consts⟩

/-- Both runs write a known value to a register. -/
theorem Agree.writeConst (h : k.Agree c d) (rd : RegId) (v : Word) (p : Addr) :
    (k.writeConst rd v).Agree ⟨Function.update c.regs rd v, c.flags, p⟩
      ⟨Function.update d.regs rd v, d.flags, p⟩ := by
  have hw := h.write rd v p
  refine ⟨rfl, hw.regs, hw.flags, fun q hq => ?_⟩
  rcases List.mem_cons.mp hq with rfl | hq
  · exact ⟨Function.update_self rd v c.regs, Function.update_self rd v d.regs⟩
  · exact hw.consts q hq

/-- Both runs go on to the same word. -/
theorem Agree.move (h : k.Agree c d) (p : Addr) : k.Agree { c with pc := p } { d with pc := p } :=
  ⟨rfl, h.regs, h.flags, h.consts⟩

/-- Both runs execute the same ALU operation on the same operands. -/
theorem Agree.executeAlu (h : k.Agree c d) {op : Option AluOp} {b b' : Word}
    (halu : alu op (c.regs rd) b false = alu op (d.regs rd) b' false) :
    (k.afterAlu op rd).Agree (c.executeAlu op rd b) (d.executeAlu op rd b') := by
  simp only [afterAlu, Core.executeAlu, ← halu, h.pc]
  split_ifs
  · exact (h.write rd _ _).setFlags _
  · exact ⟨rfl, h.regs, fun _ => rfl, h.consts⟩

/-- A branch or jump goes the same way in both runs, to one of its targets. -/
theorem Agree.branchTo (h : k.Agree c d) {cond : BitVec 4} (hcond : k.decides cond = true)
    (target : Addr) : k.Agree (c.branchTo cond target) (d.branchTo cond target) ∧
      (c.branchTo cond target).pc ∈ targets c.pc cond target := by
  have hsame : condTaken cond c.flags.z c.flags.n = condTaken cond d.flags.z d.flags.n := by
    rcases Bool.or_eq_true_iff.mp hcond with hflags | huc
    · rw [h.flags hflags]
    · rw [eq_of_beq huc]
      rfl
  refine ⟨⟨?_, h.regs, h.flags, h.consts⟩, ?_⟩
  · simp only [Core.branchTo, hsame, h.pc]
  · simp only [Core.branchTo, targets]
    by_cases huc : cond = Cond.UC.code
    · subst huc
      exact List.mem_singleton_self target
    · rw [if_neg huc]
      split_ifs
      · exact List.mem_cons_self
      · exact List.mem_cons_of_mem _ (List.mem_singleton_self _)

/-- **One instruction in two runs.** It makes the same access, the runs agree on the facts after
it, and it goes to one of the places it may go to. -/
theorem Agree.execute (h : k.Agree c d) {i : Decoded} (mem : Addr → Word)
    (hk : k.after i = some k') {l : List Addr} (hl : k.next c.pc i = some l) :
    c.access i = d.access i ∧ k'.Agree (c.execute i mem) (d.execute i mem) ∧
      (c.execute i mem).pc ∈ l := by
  have haddr : ∀ {ra}, ra ∈ k.regs → c.addr ra = d.addr ra := fun hr => by
    rw [Core.addr, h.regs _ hr, Core.addr]
  cases i with
  | rtype op rd rs =>
    cases hl
    refine ⟨rfl, ?_, List.mem_singleton_self _⟩
    simp only [after] at hk
    split_ifs at hk with hxor hreads
    -- `XOR R, R` clears the register whatever it holds
    · obtain ⟨rfl, rfl⟩ := hxor
      cases hk
      have halu : ∀ a, alu (some .XOR) a a false = (0, .clear) := fun a => by
        simp only [alu, BitVec.xor_self]
        rfl
      have hself : alu (some .XOR) (c.regs rd) (c.regs rd) false =
          alu (some .XOR) (d.regs rd) (d.regs rd) false := by rw [halu, halu]
      exact h.executeAlu hself
    · cases hk
      refine h.executeAlu ?_
      rw [h.regs rs hreads.1]
      rcases hreads.2 with rfl | hrd
      · rfl
      · rw [h.regs rd hrd]
  | itype op rd imm =>
    cases hl
    refine ⟨rfl, ?_, List.mem_singleton_self _⟩
    simp only [after] at hk
    split_ifs at hk with hmov hrd
    · subst hmov
      cases hk
      have hagree := (h.writeConst rd imm (c.pc + 1)).setFlags .clear
      have hpc : d.pc + 1 = c.pc + 1 := by rw [h.pc]
      simp only [Core.execute, Core.executeAlu, hpc]
      exact hagree
    · cases hk
      refine h.executeAlu ?_
      rw [h.regs rd hrd]
  | load rd ra =>
    cases hl
    simp only [after] at hk
    split_ifs at hk with hra
    cases hk
    have hmem : mem (c.addr ra) = mem (d.addr ra) := by rw [haddr hra]
    refine ⟨by simp only [Core.access, haddr hra], ?_, List.mem_singleton_self _⟩
    simp only [Core.execute, ← hmem, ← h.pc]
    exact h.write rd _ _
  | stor rs ra =>
    cases hl
    simp only [after] at hk
    split_ifs at hk with hreads
    cases hk
    refine ⟨by simp only [Core.access, haddr hreads.2, h.regs rs hreads.1], ?_,
      List.mem_singleton_self _⟩
    simp only [Core.execute, ← h.pc]
    exact h.move _
  | branch cond disp =>
    cases hl
    simp only [after] at hk
    split_ifs at hk with hcond
    cases hk
    obtain ⟨hagree, hmem⟩ := h.branchTo hcond (c.pc + BitVec.ofInt 10 disp)
    refine ⟨rfl, ?_, hmem⟩
    simp only [Core.execute, ← h.pc]
    exact hagree
  | jump cond rt =>
    -- the target is a register, which both runs know to be a constant
    simp only [after] at hk
    split_ifs at hk with hcond
    cases hk
    simp only [next, Option.map_eq_some_iff] at hl
    obtain ⟨v, hv, rfl⟩ := hl
    obtain ⟨hc, hd⟩ := h.consts _ (mem_of_lookup hv)
    obtain ⟨hagree, hmem⟩ := h.branchTo hcond (v.setWidth 10)
    simp only [Core.execute, Core.addr, hc, hd]
    exact ⟨rfl, hagree, hmem⟩
  | halt => cases hk
  | undefined => cases hk

end Facts

/-! ### Following every path -/

/-- The cut points of a program: words with what two runs agree on there. -/
abbrev Cuts := List (Addr × Facts)

/-- The facts of a cut point, or nothing at other words, follow from `k`. -/
def Cuts.reached (cuts : Cuts) (p : Addr) (k : Facts) : Bool :=
  match cuts.lookup p with
  | some k' => k.Implies k'
  | none => false

/-- Every path from word `p` comes to a cut point within `n` instructions, and two runs that agree
on `k` at `p` agree on all that is read on the way, and on the facts of the cut point. -/
def explore (code : Addr → Decoded) (cuts : Cuts) : Nat → Addr → Facts → Bool
  | 0, _, _ => false
  | n + 1, p, k =>
    match k.after (code p), k.next p (code p) with
    | some k', some l => l.all fun q => cuts.reached q k' || explore code cuts n q k'
    | _, _ => false

/-- **Two runs in step**: they agree on facts from which every path ahead has been followed. -/
def Lockstep (code : Addr → Decoded) (cuts : Cuts) (c d : Core) : Prop :=
  ∃ n k, explore code cuts n c.pc k = true ∧ k.Agree c d

/-- Every path from every cut point has been followed. -/
def Cuts.Closed (code : Addr → Decoded) (cuts : Cuts) (n : Nat) : Prop :=
  ∀ p ∈ cuts, explore code cuts n p.1 p.2 = true

instance (code : Addr → Decoded) (cuts : Cuts) (n : Nat) : Decidable (cuts.Closed code n) :=
  inferInstanceAs (Decidable (∀ p ∈ cuts, _))

variable {code : Addr → Decoded} {cuts : Cuts} {n : Nat} {c d : Core}

/-- At a cut point, with its facts, two runs are in step. -/
theorem Cuts.Closed.lockstep (hcuts : cuts.Closed code n) {k : Facts}
    (hreached : cuts.reached c.pc k = true) (h : k.Agree c d) : Lockstep code cuts c d := by
  simp only [Cuts.reached] at hreached
  split at hreached
  · next k' hk' =>
    obtain ⟨l₁, l₂, hl, -⟩ := List.lookup_eq_some_iff.mp hk'
    have hmem : (c.pc, k') ∈ cuts := hl ▸ List.mem_append_right _ List.mem_cons_self
    exact ⟨n, k', hcuts _ hmem, h.of_implies hreached⟩
  · cases hreached

/-- **Two runs stay in step**, and make the same accesses. -/
theorem Lockstep.step (hcuts : cuts.Closed code n) (h : Lockstep code cuts c d)
    (mem : Addr → Word) : c.pc = d.pc ∧ c.access (code c.pc) = d.access (code d.pc) ∧
      Lockstep code cuts (c.execute (code c.pc) mem) (d.execute (code d.pc) mem) := by
  obtain ⟨m, k, hexp, hagree⟩ := h
  cases m with
  | zero => cases hexp
  | succ m =>
    simp only [explore] at hexp
    split at hexp
    · next k' l hk' hl =>
      obtain ⟨hacc, hagree', hmem⟩ := hagree.execute mem hk' hl
      rw [← hagree.pc]
      refine ⟨rfl, hacc, ?_⟩
      rcases Bool.or_eq_true_iff.mp (List.all_eq_true.mp hexp _ hmem) with hreached | hexp'
      · exact hcuts.lockstep hreached hagree'
      · exact ⟨m, k', hexp', hagree'⟩
    · cases hexp

end Fmma
