import Fmma.Lib.Carry
import Fmma.Rtl.Golden
import Mathlib.Tactic.IntervalCases

/-!
# Numbers of several words on the core

A program that adds two numbers of any length: an `ADDU` on the lowest words and an `ADDC` on every
pair above, with loads, stores, branches and jumps anywhere in between. What the words in the
registers and in the RAM stand for is followed along: a load and a store carry it over, an addition
makes a digit of the sum, and what else is written is forgotten.
-/

namespace Fmma

/-- A place for a word. -/
inductive Place
  | reg (r : RegId)
  | ram (a : Addr)
  deriving DecidableEq

/-- What a word stands for: a digit of the one or the other number, or of their sum. -/
inductive Digit
  | left (i : ℕ)
  | right (i : ℕ)
  | sum (i : ℕ)

/-- The digits that places hold. -/
abbrev Holding := Place → Digit → Prop

/-- What a write of the host leaves. -/
def Holding.forget (holding : Holding) (host : HostWrite) : Holding := fun p d =>
  holding p d ∧ ∀ a v, host = some (a, v) → p ≠ .ram a

theorem Holding.forget_none (holding : Holding) : holding.forget none = holding := by
  funext p d
  exact propext (and_iff_left fun a v h => absurd h.symm (Option.some_ne_none (a, v)))

/-- The word in a place. -/
def Fabric.value (s : Fabric) : Place → Word
  | .reg r => s.core.regs r
  | .ram a => s.ram a

/-- The instruction that is executed in this clock, if one is. -/
def Fabric.executing (s : Fabric) : Option Decoded :=
  match s.core.fsm.state with
  | .S0 | .S1 | .hlt => none
  | .S2 | .S3 | .S4 | .S5 | .S6 => some (decode s.core.ir)

/-- An addition in progress: how many digits are done, and the digits that places hold. -/
structure Addition where
  done : ℕ
  holding : Holding

namespace Addition

variable (t : Addition) (host : HostWrite)

/-- A word written to a place. -/
def put (p : Place) (digits : Digit → Prop) : Addition :=
  { t with holding := Function.update (t.holding.forget host) p digits }

/-- What an instruction does to an addition. That of the next digit finds the two words in
registers, and is an `ADDU` for the lowest digit and an `ADDC` for the others. -/
inductive Performs (c : Core) : Decoded → Addition → Prop
  | load (rd ra : RegId) :
      Performs c (.load rd ra) (t.put host (.reg rd) (t.holding (.ram (c.addr ra))))
  | stor (rs ra : RegId) :
      Performs c (.stor rs ra) (t.put host (.ram (c.addr ra)) (t.holding (.reg rs)))
  | branch (cond : BitVec 4) (disp : Int) :
      Performs c (.branch cond disp) { t with holding := t.holding.forget host }
  | jump (cond : BitVec 4) (rt : RegId) :
      Performs c (.jump cond rt) { t with holding := t.holding.forget host }
  | add (rd rs : RegId)
      (hwords : t.holding (.reg rd) (.left t.done) ∧ t.holding (.reg rs) (.right t.done) ∨
        t.holding (.reg rd) (.right t.done) ∧ t.holding (.reg rs) (.left t.done)) :
      Performs c (.rtype (some (if t.done = 0 then .ADDU else .ADDC)) rd rs)
        { t.put host (.reg rd) (· = .sum t.done) with done := t.done + 1 }

/-- What a clock does to an addition. No word is written by both sides at one edge. -/
inductive Clock (s : Fabric) : Addition → Prop
  | waits (hd : s.executing = none) : Clock s { t with holding := t.holding.forget host }
  | executes {d : Decoded} {t' : Addition} (hd : s.executing = some d) (hapart : s.Apart host)
      (h : Performs t host s.toCore d t') : Clock s t'

/-- Nothing is done yet, and the words that are held are those of the two numbers. -/
structure Begins (s : Fabric) (x y : ℕ → Word) : Prop where
  done : t.done = 0
  left : ∀ p i, t.holding p (.left i) → s.value p = x i
  right : ∀ p i, t.holding p (.right i) → s.value p = y i
  sum : ∀ p i, ¬t.holding p (.sum i)

end Addition

/-! ### The turns of the core -/

namespace Fabric

variable {s : Fabric} {host : HostWrite}

/-- Where the core is with an instruction, whatever its words are. -/
inductive Turn (s : Fabric) : Prop
  | fetching (h : s.Fetching)
  | decoding (h : s.core.fsm = Fsm.idle .S1)
  | decoded {w : Word} (h : s.Decoding w) (hhalt : decode w ≠ .halt) (hund : decode w ≠ .undefined)
  | halted (h : s.Quiet) (hstate : s.core.fsm.state = .hlt)

/-- A clock without an instruction. -/
structure Waits (s : Fabric) (host : HostWrite) : Prop where
  executing : s.executing = none
  core : (s.clock host).toCore = s.toCore
  ram : (s.clock host).ram = host.apply s.ram
  turn : (s.clock host).Turn

/-- A clock with one. -/
structure Runs (s : Fabric) (host : HostWrite) (d : Decoded) : Prop where
  executing : s.executing = some d
  performs : s.Performs host d
  turn : (s.clock host).Turn

theorem Fetching.waits_clock (h : s.Fetching) (host : HostWrite) : s.Waits host := by
  obtain ⟨hcore, hram, hfsm⟩ := h.clock host
  have hexecuting : s.executing = none := by rw [executing, h.state]
  exact ⟨hexecuting, hcore, hram, .decoding hfsm⟩

theorem Decoding.turn {w : Word} (h : s.Decoding w) : s.Turn := by
  by_cases hw : decode w = .halt ∨ decode w = .undefined
  · obtain ⟨hquiet, hstate⟩ := h.parks hw
    exact .halted hquiet hstate
  · obtain ⟨hhalt, hund⟩ := not_or.mp hw
    exact .decoded h hhalt hund

/-- **One clock** of the core, whatever it is fed. -/
theorem Turn.clock (h : s.Turn) (host : HostWrite) : s.Waits host ∨ ∃ d, s.Runs host d := by
  cases h with
  | fetching hfetch => exact .inl (hfetch.waits_clock host)
  | decoding hdecode =>
    obtain ⟨hcore, hram, hdec⟩ := decoding_clock hdecode host
    have hexecuting : s.executing = none := by
      have hstate : s.core.fsm.state = .S1 := congrArg Fsm.state hdecode
      rw [executing, hstate]
    exact .inl ⟨hexecuting, hcore, hram, hdec.turn⟩
  | decoded hdec hhalt hund =>
    obtain ⟨hS0, hS1, hhlt⟩ := hdec.executes hhalt hund
    have hperforms := performs hdec hhalt hund host
    refine .inr ⟨_, ?_, hperforms, .fetching hperforms.fetching⟩
    rw [executing, hdec.ir]
    cases hs : s.core.fsm.state with
    | S0 => exact absurd hs hS0
    | S1 => exact absurd hs hS1
    | hlt => exact absurd hs hhlt
    | S2 | S3 | S4 | S5 | S6 => rfl
  | halted hquiet hstate =>
    obtain ⟨hcore, hram, -, hfsm⟩ := hquiet.clock host
    have hexecuting : s.executing = none := by rw [executing, hstate]
    refine .inl ⟨hexecuting, hcore, hram, ?_⟩
    rw [Fsm.edge, hstate] at hfsm
    dsimp only at hfsm
    rw [if_neg Bool.false_ne_true] at hfsm
    split_ifs at hfsm
    · exact .halted (quiet_of_idle hfsm) (congrArg Fsm.state hfsm)
    · exact .decoding hfsm

end Fabric

/-! ### The invariant -/

/-- The word that a digit stands for. -/
def Digit.word (x y : ℕ → Word) : Digit → Word
  | .left i => x i
  | .right i => y i
  | .sum i => Carry.sumAt x y i

namespace Addition

variable {s : Fabric} {host : HostWrite} {t t' : Addition} {x y : ℕ → Word}

/-- **The invariant.** The places hold what they are said to hold, and the carry of what is done is
in the flag register. -/
structure Inv (t : Addition) (s : Fabric) (x y : ℕ → Word) : Prop where
  turn : s.Turn
  holds : ∀ p d, t.holding p d → s.value p = d.word x y
  carry : 0 < t.done → s.core.fr.c = Carry.carryAt x y t.done

/-- What is not written keeps its word. -/
theorem holds_forget {p : Place} {d : Digit} (h : t.holding.forget host p d) (s : Fabric) :
    Fabric.value { s with ram := host.apply s.ram } p = s.value p := by
  cases p with
  | reg r => rfl
  | ram a => exact HostWrite.apply_of_ne fun b v hb hab => h.2 b v hb (congrArg Place.ram hab.symm)

theorem Inv.kept (h : t.Inv s x y) {s' : Fabric}
    (hsame : ∀ p, s'.value p = Fabric.value { s with ram := host.apply s.ram } p) (p : Place)
    (d : Digit) (hp : t.holding.forget host p d) : s'.value p = d.word x y :=
  (hsame p).trans ((holds_forget hp s).trans (h.holds p d hp.1))

/-- One word is written. -/
theorem Inv.written (h : t.Inv s x y) {s' : Fabric} {p₀ : Place} {digits : Digit → Prop}
    (hput : ∀ d, digits d → s'.value p₀ = d.word x y)
    (hsame : ∀ p, p ≠ p₀ → s'.value p = Fabric.value { s with ram := host.apply s.ram } p)
    (p : Place) (d : Digit)
    (hp : Function.update (t.holding.forget host) p₀ digits p d) : s'.value p = d.word x y := by
  by_cases hp₀ : p = p₀
  · subst hp₀
    rw [Function.update_self] at hp
    exact hput d hp
  · rw [Function.update_of_ne hp₀] at hp
    exact (hsame p hp₀).trans ((holds_forget hp s).trans (h.holds p d hp.1))

/-- The digit that an addition of two digits makes, and its carry. -/
theorem Inv.digit (h : t.Inv s x y) {rd rs : RegId}
    (hwords : t.holding (.reg rd) (.left t.done) ∧ t.holding (.reg rs) (.right t.done) ∨
      t.holding (.reg rd) (.right t.done) ∧ t.holding (.reg rs) (.left t.done)) {op : AluOp}
    (hop : op = if t.done = 0 then .ADDU else .ADDC) :
    (alu (some op) (s.core.regs rd) (s.core.regs rs) s.core.fr.c).1 = Carry.sumAt x y t.done ∧
      (alu (some op) (s.core.regs rd) (s.core.regs rs) s.core.fr.c).2.c =
        Carry.carryAt x y (t.done + 1) := by
  have hsum : (s.core.regs rd).toNat + (s.core.regs rs).toNat =
      (x t.done).toNat + (y t.done).toNat := by
    rcases hwords with ⟨hrd, hrs⟩ | ⟨hrd, hrs⟩
    · have hleft : s.core.regs rd = x t.done := h.holds _ _ hrd
      have hright : s.core.regs rs = y t.done := h.holds _ _ hrs
      rw [hleft, hright]
    · have hright : s.core.regs rd = y t.done := h.holds _ _ hrd
      have hleft : s.core.regs rs = x t.done := h.holds _ _ hrs
      rw [hleft, hright, Nat.add_comm]
  have hover : ∀ n : ℕ, decide (0xFFFFFFFF < n) = decide (2 ^ 32 ≤ n) := fun n =>
    decide_eq_decide.mpr Iff.rfl
  rw [hop, Carry.sumAt, Carry.carryAt, ← hsum, ← hover]
  by_cases hzero : t.done = 0
  · rw [if_pos hzero, hzero]
    refine ⟨?_, rfl⟩
    refine BitVec.eq_of_toNat_eq ?_
    rw [BitVec.toNat_ofNat]
    exact BitVec.toNat_add _ _
  · rw [if_neg hzero, ← h.carry (Nat.pos_of_ne_zero hzero)]
    exact ⟨rfl, rfl⟩

/-- A clock without an instruction keeps the invariant. -/
theorem Inv.waits (h : t.Inv s x y) (hwaits : s.Waits host) :
    Inv { t with holding := t.holding.forget host } (s.clock host) x y := by
  have hregs : (s.clock host).core.regs = s.core.regs := congrArg Core.regs hwaits.core
  have hflags : (s.clock host).core.fr = s.core.fr := congrArg Core.flags hwaits.core
  refine ⟨hwaits.turn, h.kept fun p => ?_, fun hpos => ?_⟩
  · cases p with
    | reg r => exact congrFun hregs r
    | ram a => exact congrFun hwaits.ram a
  · rw [hflags]
    exact h.carry hpos

/-- **An instruction** keeps the invariant. -/
theorem Inv.runs (h : t.Inv s x y) {d : Decoded} (hruns : s.Runs host d)
    (hperforms : t.Performs host s.toCore d t') : t'.Inv (s.clock host) x y := by
  have hregs := congrArg Core.regs hruns.performs.core
  have hflags := congrArg Core.flags hruns.performs.core
  have hram := hruns.performs.ram
  cases hperforms with
  | load rd ra =>
    refine ⟨hruns.turn, h.written (fun d hd => ?_) fun p hp => ?_, fun hpos => ?_⟩
    · exact (congrFun hregs rd).trans ((Function.update_self ..).trans (h.holds _ d hd))
    · cases p with
      | reg r =>
        have hr : r ≠ rd := fun hr => hp (congrArg Place.reg hr)
        exact (congrFun hregs r).trans (Function.update_of_ne hr ..)
      | ram a => exact congrFun hram a
    · exact (congrArg Flags.c hflags).trans (h.carry hpos)
  | stor rs ra =>
    refine ⟨hruns.turn, h.written (fun d hd => ?_) fun p hp => ?_, fun hpos => ?_⟩
    · exact (congrFun hram _).trans ((Function.update_self ..).trans (h.holds _ d hd))
    · cases p with
      | reg r => exact congrFun hregs r
      | ram a =>
        have ha : a ≠ s.toCore.addr ra := fun ha => hp (congrArg Place.ram ha)
        exact (congrFun hram a).trans (Function.update_of_ne ha ..)
    · exact (congrArg Flags.c hflags).trans (h.carry hpos)
  | branch cond disp =>
    refine ⟨hruns.turn, h.kept fun p => ?_, fun hpos => ?_⟩
    · cases p with
      | reg r => exact congrFun hregs r
      | ram a => exact congrFun hram a
    · exact (congrArg Flags.c hflags).trans (h.carry hpos)
  | jump cond rt =>
    refine ⟨hruns.turn, h.kept fun p => ?_, fun hpos => ?_⟩
    · cases p with
      | reg r => exact congrFun hregs r
      | ram a => exact congrFun hram a
    · exact (congrArg Flags.c hflags).trans (h.carry hpos)
  | add rd rs hwords =>
    obtain ⟨hsum, hcarry⟩ := h.digit hwords rfl
    have hcmp : ¬some (if t.done = 0 then AluOp.ADDU else .ADDC) = some .CMP := by
      split_ifs <;> exact fun hop => AluOp.noConfusion (Option.some_inj.mp hop)
    have hupdate : (s.clock host).core.regs = Function.update s.core.regs rd (alu
        (some (if t.done = 0 then .ADDU else .ADDC)) (s.core.regs rd) (s.core.regs rs)
        s.core.fr.c).1 := hregs.trans (if_neg hcmp)
    refine ⟨hruns.turn, h.written ?_ fun p hp => ?_, fun _ => ?_⟩
    · rintro d rfl
      exact (congrFun hupdate rd).trans ((Function.update_self ..).trans hsum)
    · cases p with
      | reg r =>
        have hr : r ≠ rd := fun hr => hp (congrArg Place.reg hr)
        exact (congrFun hupdate r).trans (Function.update_of_ne hr ..)
      | ram a => exact congrFun hram a
    · exact (congrArg Flags.c hflags).trans hcarry

/-- **One clock.** -/
theorem Inv.clock (h : t.Inv s x y) (hclock : t.Clock host s t') : t'.Inv (s.clock host) x y := by
  cases hclock with
  | waits hd =>
    rcases h.turn.clock host with hwaits | ⟨d, hruns⟩
    · exact h.waits hwaits
    · cases hd.symm.trans hruns.executing
  | executes hd _ hperforms =>
    rcases h.turn.clock host with hwaits | ⟨d, hruns⟩
    · cases hwaits.executing.symm.trans hd
    · obtain rfl := Option.some_inj.mp (hd.symm.trans hruns.executing)
      exact h.runs hruns hperforms

theorem Begins.inv (h : t.Begins s x y) (hfetch : s.Fetching) : t.Inv s x y := by
  refine ⟨.fetching hfetch, fun p d hp => ?_, fun hpos => absurd h.done hpos.ne'⟩
  cases d with
  | left i => exact h.left p i hp
  | right i => exact h.right p i hp
  | sum i => exact absurd hp (h.sum p i)

end Addition

/-! ### The sum -/

open Clocked (after)

open Fabric (clock)

/-- **Sums of several words.** Whatever is loaded, stored and jumped to in between, and whatever the
host writes but for the word the core stores at the same edge, the digits of the sum are those of
the exact sum, and the carry flag is the carry out of it. -/
theorem multiword_addition {s : Fabric} {hosts : ℕ → HostWrite} {x y : ℕ → Word}
    {additions : ℕ → Addition} {N n : ℕ} (hfetch : s.Fetching)
    (hbegins : (additions 0).Begins s x y)
    (hclock : ∀ k < N, (additions k).Clock (hosts k) (after clock s hosts k) (additions (k + 1)))
    (hpos : 0 < n) (hdone : (additions N).done = n) (dest : ℕ → Place)
    (hdest : ∀ i < n, (additions N).holding (dest i) (.sum i)) :
    Carry.number (fun i => (after clock s hosts N).value (dest i)) n =
        (Carry.number x n + Carry.number y n) % 2 ^ (32 * n) ∧
      ((after clock s hosts N).core.fr.c = true ↔
        2 ^ (32 * n) ≤ Carry.number x n + Carry.number y n) := by
  have hinv : ∀ k ≤ N, (additions k).Inv (after clock s hosts k) x y := by
    intro k
    induction k with
    | zero => exact fun _ => hbegins.inv hfetch
    | succ k ih => exact fun hk => (ih (Nat.le_of_succ_le hk)).clock (hclock k hk)
  have hend := hinv N le_rfl
  have hwords : Carry.number (fun i => (after clock s hosts N).value (dest i)) n =
      Carry.number (Carry.sumAt x y) n :=
    Carry.number_congr fun i hi => hend.holds (dest i) (.sum i) (hdest i hi)
  obtain ⟨hsum, hcarry⟩ := Carry.number_sumAt_eq x y n
  rw [hwords, hend.carry (hdone ▸ hpos), hdone, pow_mul]
  exact ⟨hsum, hcarry⟩

/-- Two numbers of two words in registers, and the program that adds them. -/
def Fabric.twoWords : Fabric where
  core :=
    { pc := 8
      ir := 0
      fr := .clear
      regs := fun r => if r = 1 then 0xFFFFFFFF else if r = 4 then 2 else 1
      fsm := Fsm.idle .S0 }
  ram := fun a =>
    if a = 8 then encodeRtype .ADDU 1 3 else if a = 9 then encodeRtype .ADDC 2 4 else 0

/-- The digits that the registers hold at the start. -/
def Holding.twoWords : Holding := fun p d =>
  p = .reg 1 ∧ d = .left 0 ∨ p = .reg 2 ∧ d = .left 1 ∨ p = .reg 3 ∧ d = .right 0 ∨
    p = .reg 4 ∧ d = .right 1

/-- The addition on its six clocks. -/
def Addition.twoWords : ℕ → Addition
  | 0 => ⟨0, .twoWords⟩
  | k + 1 =>
    let t := twoWords k
    if k = 2 then { t.put none (.reg 1) (· = .sum t.done) with done := t.done + 1 }
    else if k = 5 then { t.put none (.reg 2) (· = .sum t.done) with done := t.done + 1 }
    else { t with holding := t.holding.forget none }

/-- `2^33 - 1` and `2^33 + 1` are added up to `2^34`. -/
theorem multiword_addition_twoWords :
    Carry.number (fun i => (after clock Fabric.twoWords (fun _ => none) 6).value
      (if i = 0 then .reg 1 else .reg 2)) 2 = 2 ^ 34 ∧
      ((after clock Fabric.twoWords (fun _ => none) 6).core.fr.c = true ↔ 2 ^ 64 ≤ 2 ^ 34) := by
  let x : ℕ → Word := fun i => if i = 0 then 0xFFFFFFFF else 1
  let y : ℕ → Word := fun i => if i = 0 then 1 else 2
  have hfetch : Fabric.twoWords.Fetching := ⟨⟨rfl, rfl, rfl, rfl, rfl⟩, rfl⟩
  have hbegins : (Addition.twoWords 0).Begins Fabric.twoWords x y := by
    refine ⟨rfl, ?_, ?_, ?_⟩
    · rintro p i (⟨rfl, h⟩ | ⟨rfl, h⟩ | ⟨rfl, h⟩ | ⟨rfl, h⟩) <;> cases h <;> rfl
    · rintro p i (⟨rfl, h⟩ | ⟨rfl, h⟩ | ⟨rfl, h⟩ | ⟨rfl, h⟩) <;> cases h <;> rfl
    · rintro p i (⟨rfl, h⟩ | ⟨rfl, h⟩ | ⟨rfl, h⟩ | ⟨rfl, h⟩) <;> cases h
  have hstart : (Addition.twoWords 2).holding = .twoWords := by
    simp only [Addition.twoWords, Holding.forget_none]
    rfl
  have hfirst : (Addition.twoWords 5).holding =
      Function.update Holding.twoWords (.reg 1) (· = .sum 0) := by
    simp only [Addition.twoWords, Addition.put, Holding.forget_none]
    rfl
  have hsecond : (Addition.twoWords 6).holding =
      Function.update (Function.update Holding.twoWords (.reg 1) (· = .sum 0)) (.reg 2)
        (· = .sum 1) := by
    simp only [Addition.twoWords, Addition.put, Holding.forget_none]
    rfl
  have hclock : ∀ k < 6, (Addition.twoWords k).Clock none
      (after clock Fabric.twoWords (fun _ => none) k) (Addition.twoWords (k + 1)) := by
    intro k hk
    interval_cases k
    · exact .waits rfl
    · exact .waits rfl
    · refine .executes (d := .rtype (some .ADDU) 1 3) rfl (Fabric.apart_none _)
        (.add 1 3 (.inl ⟨?_, ?_⟩))
      · rw [hstart]
        exact .inl ⟨rfl, rfl⟩
      · rw [hstart]
        exact .inr (.inr (.inl ⟨rfl, rfl⟩))
    · exact .waits rfl
    · exact .waits rfl
    · refine .executes (d := .rtype (some .ADDC) 2 4) rfl (Fabric.apart_none _)
        (.add 2 4 (.inl ⟨?_, ?_⟩))
      · rw [hfirst, Function.update_of_ne (by decide)]
        exact .inr (.inl ⟨rfl, rfl⟩)
      · rw [hfirst, Function.update_of_ne (by decide)]
        exact .inr (.inr (.inr ⟨rfl, rfl⟩))
  have hdest : ∀ i < 2,
      (Addition.twoWords 6).holding (if i = 0 then .reg 1 else .reg 2) (.sum i) := by
    intro i hi
    rw [hsecond]
    interval_cases i
    · rw [if_pos rfl, Function.update_of_ne (by decide), Function.update_self]
    · rw [if_neg (by decide), Function.update_self]
  have hleft : Carry.number x 2 = 2 ^ 33 - 1 := by decide
  have hright : Carry.number y 2 = 2 ^ 33 + 1 := by decide
  have htotal : (2 ^ 33 - 1 + (2 ^ 33 + 1)) % 2 ^ (32 * 2) = 2 ^ 34 := rfl
  obtain ⟨hsum, hcarry⟩ := multiword_addition (n := 2) hfetch hbegins hclock (by decide) rfl _ hdest
  rw [hleft, hright] at hsum hcarry
  exact ⟨hsum.trans htotal, hcarry⟩

end Fmma
