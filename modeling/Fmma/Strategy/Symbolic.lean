import Fmma.Lib.Leads
import Fmma.Sim
import Fmma.Strategy.Thread

/-!
# Executing a listing symbolically

Between two points where it touches the RAM, a strategy program executes *quiet* instructions:
arithmetic, branches and jumps. `quiet` is that part of `Cpu.step`. What is known about the
registers along such a stretch is a list of `Pins`, a register and its value each, and
`Exec s env p Q` says that from word `p`, with at least `env` known, the quiet instructions
lead to an observable state with the property `Q`. There is one rule for each kind of
instruction, so that a proof of `Exec` follows the listing.
-/

namespace Fmma

/-! ### Known registers -/

/-- What is known about the registers; an earlier entry shadows a later one. -/
abbrev Pins := List (RegId × Word)

/-- The registers are as the pins say. -/
def Pins.Holds (env : Pins) (r : RegId → Word) : Prop :=
  ∀ i v, env.lookup i = some v → r i = v

namespace Pins

variable {env : Pins} {r : RegId → Word}

/-- Writing a register and recording it. -/
theorem Holds.update (h : env.Holds r) (i : RegId) (x : Word) :
    Holds ((i, x) :: env) (Function.update r i x) := by
  intro j v hj
  by_cases hij : j = i
  · subst hij
    rw [List.lookup_cons_self, Option.some.injEq] at hj
    rw [Function.update_self, hj]
  · rw [List.lookup_cons, beq_false_of_ne hij] at hj
    rw [Function.update_of_ne hij]
    exact h j v hj

/-- Pins read off the register file. -/
theorem holds_of_forall (h : env.Forall fun q => r q.1 = q.2) : env.Holds r := by
  intro i v hi
  rw [List.forall_iff_forall_mem] at h
  obtain ⟨l₁, l₂, hl, -⟩ := List.lookup_eq_some_iff.mp hi
  exact h (i, v) (hl ▸ by simp)

/-- Knowing less. -/
theorem Holds.sub {env' : Pins} (h : env.Holds r)
    (hsub : env'.Forall fun q => env.lookup q.1 = some q.2) : env'.Holds r := by
  intro i v hi
  rw [List.forall_iff_forall_mem] at hsub
  obtain ⟨l₁, l₂, hl, -⟩ := List.lookup_eq_some_iff.mp hi
  exact h i v (hsub (i, v) (hl ▸ by simp))

end Pins

/-- A word index as a register holds it. -/
def asWord (a : Addr) : Word := a.setWidth 32

@[simp]
theorem setWidth_asWord (a : Addr) : (asWord a).setWidth 10 = a :=
  BitVec.setWidth_setWidth_of_le a (by decide)

namespace Strategy

/-! ### Quiet instructions -/

/-- The word index of `LOOP`. -/
def loopAt (s : Strategy) : Addr := s.pick 46 56

/-- The visible instructions that touch no memory: the head of `LOOP`, the two ways to apply
a fill, and the commit of a tick. -/
def stops (s : Strategy) : List Addr := s.pick [46, 63, 65, 83] [56, 73, 75, 93]

/-- Whether others can see the instruction at a word: it makes an access or is one of the
`stops`. -/
def visible (s : Strategy) (p : Addr) : Bool :=
  match s.code p with
  | .load _ _ => true
  | .stor _ _ => true
  | _ => s.stops.contains p

/-- One quiet instruction. -/
def quiet (s : Strategy) (c : Core) : Option Core :=
  if s.visible c.pc then none
  else match s.code c.pc with
  | .halt => none
  | .undefined => none
  | d => some (c.execute d fun _ => 0)

/-- From word `p`, with at least `env` known, the quiet instructions lead to `Q`. -/
def Exec (s : Strategy) (env : Pins) (p : Addr) (Q : Core → Prop) : Prop :=
  ∀ r f, env.Holds r → Leads s.quiet Q ⟨r, f, p⟩

/-- More may be known. -/
theorem Exec.mono {s : Strategy} {env env' : Pins} {p : Addr} {Q : Core → Prop}
    (h : s.Exec env' p Q) (hsub : env'.Forall fun q => env.lookup q.1 = some q.2) :
    s.Exec env p Q :=
  fun r f hr => h r f (hr.sub hsub)

/-! ### One rule for each kind of instruction -/

section Rules

variable {s : Strategy} {Q : Core → Prop} {env : Pins} {p : Addr} {op : AluOp}
  {rd rs rt : RegId} {a b imm : Word} {cond : BitVec 4} {disp : Int}

/-- `OP Rd, Rs`, for an operation that writes its result. -/
theorem exec_rtype (hs : s.visible p = false) (hc : s.code p = .rtype (some op) rd rs)
    (hop : writesResult (some op) = true) (ha : env.lookup rd = some a)
    (hb : env.lookup rs = some b)
    (h : s.Exec ((rd, (alu (some op) a b false).1) :: env) (p + 1) Q) : s.Exec env p Q := by
  intro r f hr
  refine .step ?_ (h _ (alu (some op) a b false).2 (hr.update rd _))
  simp only [quiet, hs, hc, Core.execute, Core.executeAlu, hop, hr rd a ha, hr rs b hb]
  rfl

/-- `MOV Rd, Rs`: what `Rd` held does not matter. -/
theorem exec_mov (hs : s.visible p = false) (hc : s.code p = .rtype (some .MOV) rd rs)
    (hb : env.lookup rs = some b) (h : s.Exec ((rd, b) :: env) (p + 1) Q) :
    s.Exec env p Q := by
  intro r f hr
  refine .step ?_ (h _ .clear (hr.update rd _))
  simp only [quiet, hs, hc, Core.execute, Core.executeAlu, hr rs b hb]
  rfl

/-- `XOR Rd, Rd`, the programs' way to zero a register. -/
theorem exec_zero (hs : s.visible p = false) (hc : s.code p = .rtype (some .XOR) rd rd)
    (h : s.Exec ((rd, 0) :: env) (p + 1) Q) : s.Exec env p Q := by
  intro r f hr
  refine .step ?_ (h _ .clear (hr.update rd _))
  simp only [quiet, hs, hc, Core.execute, Core.executeAlu, alu, BitVec.xor_self]
  rfl

/-- `OP Rd, #imm`, for an operation that writes its result. -/
theorem exec_itype (hs : s.visible p = false) (hc : s.code p = .itype (some op) rd imm)
    (hop : writesResult (some op) = true) (ha : env.lookup rd = some a)
    (h : s.Exec ((rd, (alu (some op) a imm false).1) :: env) (p + 1) Q) : s.Exec env p Q := by
  intro r f hr
  refine .step ?_ (h _ (alu (some op) a imm false).2 (hr.update rd _))
  simp only [quiet, hs, hc, Core.execute, Core.executeAlu, hop, hr rd a ha]
  rfl

/-- `MOV Rd, #imm`. -/
theorem exec_movi (hs : s.visible p = false) (hc : s.code p = .itype (some .MOV) rd imm)
    (h : s.Exec ((rd, imm) :: env) (p + 1) Q) : s.Exec env p Q := by
  intro r f hr
  refine .step ?_ (h _ .clear (hr.update rd _))
  simp only [quiet, hs, hc]
  rfl

/-- `BUC disp`. -/
theorem exec_buc (hs : s.visible p = false) (hc : s.code p = .branch 14 disp)
    (h : s.Exec env (p + BitVec.ofInt 10 disp) Q) : s.Exec env p Q := by
  intro r f hr
  refine .step ?_ (h _ f hr)
  simp only [quiet, hs, hc]
  rfl

/-- `JUC Rt`. -/
theorem exec_juc (q : Addr) (hs : s.visible p = false) (hc : s.code p = .jump 14 rt)
    (ht : env.lookup rt = some (asWord q)) (h : s.Exec env q Q) : s.Exec env p Q := by
  intro r f hr
  have hq : (⟨r, f, p⟩ : Core).addr rt = q := by
    simp only [Core.addr, hr rt _ ht, setWidth_asWord]
  refine .step ?_ (h _ f hr)
  simp only [quiet, hs, hc, Core.execute, hq]
  rfl

/-- `CMP Rd, Rs` and the conditional branch after it: both ways have to lead to `Q`. -/
theorem exec_cmp (hs : s.visible p = false) (hc : s.code p = .rtype (some .CMP) rd rs)
    (hs' : s.visible (p + 1) = false) (hc' : s.code (p + 1) = .branch cond disp)
    (ha : env.lookup rd = some a) (hb : env.lookup rs = some b)
    (h : condTaken cond (a == b) (decide (a.toInt < b.toInt)) = true →
      s.Exec env (p + 1 + BitVec.ofInt 10 disp) Q)
    (h' : condTaken cond (a == b) (decide (a.toInt < b.toInt)) = false →
      s.Exec env (p + 1 + 1) Q) : s.Exec env p Q := by
  intro r f hr
  have hcmp : s.quiet ⟨r, f, p⟩ = some ⟨r, (alu (some .CMP) a b false).2, p + 1⟩ := by
    simp only [quiet, hs, hc, Core.execute, Core.executeAlu, hr rd a ha, hr rs b hb]
    rfl
  have hbranch : s.quiet ⟨r, (alu (some .CMP) a b false).2, p + 1⟩ =
      some ⟨r, (alu (some .CMP) a b false).2,
        if condTaken cond (a == b) (decide (a.toInt < b.toInt)) then
          p + 1 + BitVec.ofInt 10 disp else p + 1 + 1⟩ := by
    simp only [quiet, hs', hc']
    rfl
  refine .step hcmp (.step hbranch ?_)
  split
  · next ht => exact h ht _ _ hr
  · next ht => exact h' (Bool.eq_false_iff.mpr ht) _ _ hr

/-- `CMP` and `BEQ`. -/
theorem exec_beq (hs : s.visible p = false) (hc : s.code p = .rtype (some .CMP) rd rs)
    (hs' : s.visible (p + 1) = false) (hc' : s.code (p + 1) = .branch 0 disp)
    (ha : env.lookup rd = some a) (hb : env.lookup rs = some b)
    (h : a = b → s.Exec env (p + 1 + BitVec.ofInt 10 disp) Q)
    (h' : ¬a = b → s.Exec env (p + 1 + 1) Q) : s.Exec env p Q :=
  exec_cmp hs hc hs' hc' ha hb (fun ht => h (eq_of_beq ht))
    fun ht => h' (ne_of_beq_false ht)

/-- `CMP` and `BNE`. -/
theorem exec_bne (hs : s.visible p = false) (hc : s.code p = .rtype (some .CMP) rd rs)
    (hs' : s.visible (p + 1) = false) (hc' : s.code (p + 1) = .branch 1 disp)
    (ha : env.lookup rd = some a) (hb : env.lookup rs = some b)
    (h : ¬a = b → s.Exec env (p + 1 + BitVec.ofInt 10 disp) Q)
    (h' : a = b → s.Exec env (p + 1 + 1) Q) : s.Exec env p Q :=
  exec_cmp hs hc hs' hc' ha hb
    (fun ht => h (ne_of_beq_false ((Bool.not_eq_true' _).mp ht)))
    fun ht => h' (eq_of_beq ((Bool.not_eq_false' _).mp ht))

/-- `CMP` and `BLT`, a signed comparison. -/
theorem exec_blt (hs : s.visible p = false) (hc : s.code p = .rtype (some .CMP) rd rs)
    (hs' : s.visible (p + 1) = false) (hc' : s.code (p + 1) = .branch 6 disp)
    (ha : env.lookup rd = some a) (hb : env.lookup rs = some b)
    (h : a.toInt < b.toInt → s.Exec env (p + 1 + BitVec.ofInt 10 disp) Q)
    (h' : ¬a.toInt < b.toInt → s.Exec env (p + 1 + 1) Q) : s.Exec env p Q :=
  exec_cmp hs hc hs' hc' ha hb (fun ht => h (of_decide_eq_true ht))
    fun ht => h' (of_decide_eq_false ht)

/-- `CMP` and `BGE`, taken exactly when `BLT` is not. -/
theorem exec_bge (hs : s.visible p = false) (hc : s.code p = .rtype (some .CMP) rd rs)
    (hs' : s.visible (p + 1) = false) (hc' : s.code (p + 1) = .branch 7 disp)
    (ha : env.lookup rd = some a) (hb : env.lookup rs = some b)
    (h : ¬a.toInt < b.toInt → s.Exec env (p + 1 + BitVec.ofInt 10 disp) Q)
    (h' : a.toInt < b.toInt → s.Exec env (p + 1 + 1) Q) : s.Exec env p Q := by
  have htaken : ∀ z n, condTaken 7 z n = (z || !n) := fun _ _ => rfl
  refine exec_cmp hs hc hs' hc' ha hb (fun ht => h fun hlt => ?_) (fun ht => h' ?_)
  · have hne : ¬a = b := fun heq => by simp [heq] at hlt
    rw [htaken, beq_false_of_ne hne, decide_eq_true hlt] at ht
    cases ht
  · rw [htaken, Bool.or_eq_false_iff, Bool.not_eq_false'] at ht
    exact of_decide_eq_true ht.2

/-- The end of the stretch. -/
theorem exec_end (hv : s.visible p = true) (h : ∀ r f, env.Holds r → Q ⟨r, f, p⟩) :
    s.Exec env p Q := by
  intro r f hr
  refine .stop ?_ (h r f hr)
  simp only [quiet, hv]
  rfl

end Rules

/-! ### The values the programs compute -/

@[simp]
theorem alu_add_fst (a b : Word) : (alu (some .ADD) a b false).1 = a + b := rfl

@[simp]
theorem alu_sub_fst (a b : Word) : (alu (some .SUB) a b false).1 = a - b := rfl

@[simp]
theorem alu_and_fst (a b : Word) : (alu (some .AND) a b false).1 = a &&& b := rfl

@[simp]
theorem alu_mul_fst (a b : Word) : (alu (some .MUL) a b false).1 = a * b := rfl

/-- `LSH Rd, #31` is a shift to the right by one: the count is a signed five-bit field. -/
@[simp]
theorem alu_lsh_31_fst (a : Word) : (alu (some .LSH) a 31 false).1 = a >>> 1 := rfl

end Strategy

end Fmma
