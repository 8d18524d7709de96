import Fmma.Assembler.RoundTrip
import Fmma.Assembler.Source

/-!
# What the assembler refuses

The guard rails of `docs/04`, on the text of a source: no word that is a halt or that the hardware
does not decode, no branch to somewhere else, no name of two values, no program that runs into the
input block. The first always holds of an accepted program. The others hold just when the source
keeps clear of three gaps: `parse_value` takes `#NAME` for the operand of a branch, `.equ` does not
look at pending labels, and the size is checked against the RAM.
-/

namespace Fmma

namespace AsmText

open PyStr

variable {Loc : Type} {U : Unicode} {base : ℤ} {it : Item Loc} {w : Word} {symbols : Symbols}

/-- The guard rails. -/
structure GuardRails (U : Unicode) (base : ℤ) (out : Output Loc) : Prop where
  /-- An instruction is no halt, and it is one that the hardware has. -/
  words : ∀ it w, (it, w) ∈ out.items.zip out.code → it.mnemonic ≠ dotWord →
    w ≠ 0 ∧ (decode w).Known
  /-- A branch to a symbol, with or without `#`, lands on its address. -/
  branches : ∀ it w, (it, w) ∈ out.items.zip out.code → isBranch it.mnemonic = true →
    ∀ target, it.operands = [target] → ∀ v, out.symbols.lookup (symbolName U target) = some v →
      ∃ cond disp, decode w = .branch cond disp ∧ (base + it.index + disp) % 1024 = v % 1024
  /-- What a name is bound to, by labels and constants, is one value. -/
  names : ∀ name v v', (name, v) ∈ out.symbols → (name, v') ∈ out.symbols → v = v'
  /-- The program fits the program area. -/
  area : base + out.code.length ≤ 256

/-- A constant is not that of a pending label, unless it has its address. -/
def Fresh (U : Unicode) (base : ℤ) (p : Pass Loc) (l : Loc × Str) : Prop :=
  ∀ name value, lineStatement U l.2 = some (.equ name value) →
    name ∈ p.pending ++ lineLabels U l.2 → parseValue U value p.symbols = .ok (base + p.index)

/-- A source that keeps clear of the gaps. -/
structure KeepsClear (U : Unicode) (base : ℤ) (lines : List (Loc × Str)) : Prop where
  /-- Where the operand of a branch is `#NAME`, the branch is at the address 0. -/
  bare : ∀ it ∈ instructionsFrom U 0 lines, isBranch it.mnemonic = true →
    ∀ rest, it.operands = ['#' :: rest] → symbolName U ('#' :: rest) ∈ declared U lines →
      (base + it.index) % 1024 = 0
  fresh : ∀ before l after p, lines = before ++ l :: after →
    passLines U base Pass.start before = .ok p → Fresh U base p l
  area : base + (instructionsFrom U 0 lines).length ≤ 256

/-! ### Words -/

theorem bind_eq_ok {ε α β : Type} {x : Except ε α} {f : α → Except ε β} {b : β} :
    x >>= f = .ok b ↔ ∃ a, x = .ok a ∧ f a = .ok b := by
  cases x <;> simp [Bind.bind, Except.bind]

theorem reported_eq_ok {α : Type} {x : Except EncodeError α} {a : α} :
    reported x = .ok a ↔ x = .ok a := by
  cases x <;> simp [reported, Except.mapError]

/-- What an item is encoded into: its operands, parsed, by the kind of its mnemonic. -/
inductive Encoded (U : Unicode) (symbols : Symbols) (base : ℤ) (it : Item Loc) : Word → Prop
  | word {value : Str} {rest : List Str} {v : ℤ} (hm : it.mnemonic = dotWord)
      (hops : it.operands = value :: rest) (hv : parseValue U value symbols = .ok v) :
      Encoded U symbols base it (BitVec.ofInt 32 v)
  | load {a b : Str} {rd ra : RegId} (hm : it.mnemonic = ['L', 'O', 'A', 'D'])
      (hops : it.operands = [a, b]) (ha : parseRegister U a = .ok rd)
      (hb : parseRegister U b = .ok ra) : Encoded U symbols base it (encodeLoad rd ra)
  | stor {a b : Str} {rs ra : RegId} (hm : it.mnemonic = ['S', 'T', 'O', 'R'])
      (hops : it.operands = [a, b]) (ha : parseRegister U a = .ok rs)
      (hb : parseRegister U b = .ok ra) : Encoded U symbols base it (encodeStor rs ra)
  | branch {target : Str} {cond : Cond} {disp : ℤ} {w : Word} (hm : isBranch it.mnemonic = true)
      (hops : it.operands = [target])
      (hdisp : displacement U symbols (base + it.index) target = .ok disp)
      (hcond : resolveCond U it.mnemonic.tail = .ok cond) (h : encodeBranch cond disp = .ok w) :
      Encoded U symbols base it w
  | jump {target : Str} {cond : Cond} {rt : RegId} (hm : it.mnemonic.head? = some 'J')
      (hops : it.operands = [target]) (hrt : parseRegister U target = .ok rt)
      (hcond : resolveCond U it.mnemonic.tail = .ok cond) :
      Encoded U symbols base it (encodeJump cond rt)
  | rtype {d source : Str} {op : AluOp} {rd rs : RegId}
      (hm : aluOpcodes.lookup it.mnemonic = some op) (hops : it.operands = [d, source])
      (hrd : parseRegister U d = .ok rd) (hreg : isRegister U source = true)
      (hrs : parseRegister U source = .ok rs) : Encoded U symbols base it (encodeRtype op rd rs)
  | itype {d source : Str} {op : AluOp} {rd : RegId} {imm : ℤ} {w : Word}
      (hm : aluOpcodes.lookup it.mnemonic = some op) (hops : it.operands = [d, source])
      (hrd : parseRegister U d = .ok rd) (hreg : ¬isRegister U source = true)
      (h : encodeItype op rd imm = .ok w) : Encoded U symbols base it w

/-- **What is encoded**, case by case. -/
theorem encodeItem_cases (h : encodeItem U symbols base it = .ok w) :
    Encoded U symbols base it w := by
  rw [encodeItem] at h
  by_cases hword : it.mnemonic = dotWord
  · simp only [if_pos hword] at h
    split at h
    · cases h
    · next value rest hops =>
      obtain ⟨v, hv, h⟩ := bind_eq_ok.mp h
      split_ifs at h
      obtain rfl := Except.ok.inj h
      exact .word hword hops hv
  simp only [if_neg hword] at h
  by_cases hmem : it.mnemonic = ['L', 'O', 'A', 'D'] ∨ it.mnemonic = ['S', 'T', 'O', 'R']
  · rw [if_pos hmem] at h
    split at h
    · next a b hops =>
      obtain ⟨ra, ha, h⟩ := bind_eq_ok.mp h
      obtain ⟨rb, hb, h⟩ := bind_eq_ok.mp h
      split_ifs at h with hload
      · obtain rfl := Except.ok.inj h
        exact .load hload hops ha hb
      · obtain rfl := Except.ok.inj h
        exact .stor (hmem.resolve_left hload) hops ha hb
    · cases h
  rw [if_neg hmem] at h
  by_cases hbranch : isBranch it.mnemonic = true
  · rw [if_pos hbranch] at h
    split at h
    · next target hops =>
      obtain ⟨disp, hdisp, h⟩ := bind_eq_ok.mp h
      obtain ⟨cond, hcond, h⟩ := bind_eq_ok.mp h
      exact .branch hbranch hops hdisp hcond (reported_eq_ok.mp h)
    · cases h
  rw [if_neg hbranch] at h
  by_cases hjump : it.mnemonic.head? = some 'J'
  · rw [if_pos hjump] at h
    split at h
    · next target hops =>
      obtain ⟨rt, hrt, h⟩ := bind_eq_ok.mp h
      obtain ⟨cond, hcond, h⟩ := bind_eq_ok.mp h
      obtain rfl := Except.ok.inj h
      exact .jump hjump hops hrt hcond
    · cases h
  rw [if_neg hjump] at h
  cases hop : aluOpcodes.lookup it.mnemonic with
  | none =>
    rw [hop] at h
    cases h
  | some op =>
    simp only [hop] at h
    split at h
    · next d source hops =>
      obtain ⟨rd, hrd, h⟩ := bind_eq_ok.mp h
      by_cases hreg : isRegister U source = true
      · rw [if_pos hreg] at h
        obtain ⟨rs, hrs, h⟩ := bind_eq_ok.mp h
        obtain rfl := Except.ok.inj h
        exact .rtype hop hops hrd hreg hrs
      · rw [if_neg hreg] at h
        obtain ⟨imm, -, h⟩ := bind_eq_ok.mp h
        by_cases hneg : imm < 0
        · rw [if_pos hneg] at h
          cases h
        · rw [if_neg hneg] at h
          exact .itype hop hops hrd hreg (reported_eq_ok.mp h)
    · cases h

theorem head_of_isBranch {m : Str} (h : isBranch m = true) : m.head? = some 'B' := by
  rw [isBranch, Bool.and_eq_true, Bool.and_eq_true] at h
  exact of_decide_eq_true h.1.1

/-- What begins with a `B` or a `J` is no data and no access of memory. -/
theorem other_of_head {m : Str} (h : m.head? = some 'B' ∨ m.head? = some 'J') :
    m ≠ dotWord ∧ ¬(m = ['L', 'O', 'A', 'D'] ∨ m = ['S', 'T', 'O', 'R']) := by
  constructor
  · rintro rfl
    exact absurd h (by decide)
  · rintro (rfl | rfl) <;> exact absurd h (by decide)

/-- The mnemonic of an operation of the ALU is of no other kind. -/
theorem other_of_lookup {m : Str} {op : AluOp} (h : aluOpcodes.lookup m = some op) :
    m ≠ dotWord ∧ ¬(m = ['L', 'O', 'A', 'D'] ∨ m = ['S', 'T', 'O', 'R']) ∧ ¬isBranch m = true ∧
      m.head? ≠ some 'J' := by
  obtain ⟨before, after, hlist, -⟩ := List.lookup_eq_some_iff.mp h
  have hmem : (m, op) ∈ aluOpcodes := hlist ▸ List.mem_append_right _ List.mem_cons_self
  simp only [aluOpcodes, List.mem_cons, Prod.mk.injEq, List.not_mem_nil, or_false] at hmem
  rcases hmem with h | h | h | h | h | h | h | h | h | h | h | h | h
  all_goals
    rw [h.1]
    decide

/-- A branch is encoded with its displacement. -/
theorem branch_cases (h : encodeItem U symbols base it = .ok w)
    (hbranch : isBranch it.mnemonic = true) :
    ∃ target cond disp, it.operands = [target] ∧
      displacement U symbols (base + it.index) target = .ok disp ∧
      encodeBranch cond disp = .ok w := by
  have hhead := head_of_isBranch hbranch
  cases encodeItem_cases h with
  | branch hm hops hdisp hcond henc => exact ⟨_, _, _, hops, hdisp, henc⟩
  | word hm => exact absurd hm (other_of_head (.inl hhead)).1
  | load hm => exact absurd (.inl hm) (other_of_head (.inl hhead)).2
  | stor hm => exact absurd (.inr hm) (other_of_head (.inl hhead)).2
  | jump hm => cases hm.symm.trans hhead
  | rtype hm | itype hm => exact absurd hbranch (other_of_lookup hm).2.2.1

theorem exists_branch {cond : Cond} {disp : ℤ} (h : encodeBranch cond disp = .ok w) :
    ∃ i : Instr, i.encode = .ok w := by
  have hdisp : -128 ≤ disp ∧ disp ≤ 127 := by
    by_contra hc
    rw [encodeBranch, if_neg hc] at h
    cases h
  exact ⟨.branch cond ⟨disp, hdisp⟩, h⟩

theorem exists_itype {op : AluOp} {rd : RegId} {imm : ℤ} (h : encodeItype op rd imm = .ok w) :
    ∃ i : Instr, i.encode = .ok w := by
  have himm : 0 ≤ imm ∧ imm ≤ 0xFFFFFF := by
    by_contra hc
    rw [encodeItype, if_neg hc] at h
    cases h
  exact ⟨.itype op rd ⟨imm, himm⟩, h⟩

/-- **What is encoded is an instruction**, for a line that is no `.word`. -/
theorem exists_instr (h : encodeItem U symbols base it = .ok w) (hword : it.mnemonic ≠ dotWord) :
    ∃ i : Instr, i.encode = .ok w := by
  cases encodeItem_cases h with
  | word hm => exact absurd hm hword
  | load => exact ⟨.load _ _, rfl⟩
  | stor => exact ⟨.stor _ _, rfl⟩
  | branch hm hops hdisp hcond henc => exact exists_branch henc
  | jump => exact ⟨.jump _ _, rfl⟩
  | rtype => exact ⟨.rtype _ _ _, rfl⟩
  | itype hm hops hrd hreg henc => exact exists_itype henc

/-! ### Branches -/

/-- A bare token is its own name. -/
theorem symbolName_bare {t : Str} (hstrip : U.strip t = t) (h : t.head? ≠ some '#') :
    symbolName U t = t := by
  rw [symbolName, hstrip]
  split
  · exact absurd rfl h
  · rfl

/-- The operand of a `NOP` is its own name, or it has none. -/
theorem strip_one (U : Unicode) : U.strip ['1'] = ['1'] ∨ symbolName U ['1'] = [] := by
  cases h : U.isSpace '1' with
  | false =>
    refine .inl (stripChars_eq_self ?_)
    intro c hc
    rw [List.mem_singleton.mp hc]
    exact h
  | true =>
    have hstrip : U.strip ['1'] = [] := by
      rw [Unicode.strip, stripChars, List.dropWhile_cons_of_pos h]
      rfl
    exact .inr (by rw [symbolName, hstrip])

/-- An operand without a marker that looks up a name is the name. -/
theorem symbolName_of_lookup {v : ℤ} {target : Str}
    (hstrip : U.strip target = target ∨ target = ['1'])
    (hnames : ∀ name v, symbols.lookup name = some v → Nameable U name)
    (hmark : target.head? ≠ some '#') (hv : symbols.lookup (symbolName U target) = some v) :
    symbolName U target = target := by
  rcases hstrip with hstrip | rfl
  · exact symbolName_bare hstrip hmark
  · refine symbolName_bare ((strip_one U).resolve_right fun hnil => ?_) hmark
    rw [hnil] at hv
    obtain ⟨c, rest, hc, -⟩ := hnames _ _ hv
    cases hc

/-- **A branch to a symbol** takes its address for the displacement if the operand has a marker, and
else the distance. -/
theorem displacement_eq {address v : ℤ} {target : Str}
    (hstrip : U.strip target = target ∨ target = ['1'])
    (hnames : ∀ name v, symbols.lookup name = some v → Nameable U name)
    (hv : symbols.lookup (symbolName U target) = some v) :
    displacement U symbols address target =
      .ok (if target.head? = some '#' then v else v - address) := by
  by_cases hmark : target.head? = some '#'
  · have hnone : symbols.lookup target = none := by
      rw [Option.eq_none_iff_forall_ne_some]
      intro v' hv'
      exact (hnames _ _ hv').head_ne hmark
    rw [if_pos hmark, displacement, hnone]
    simp only [parseValue, hv]
  · rw [symbolName_of_lookup hstrip hnames hmark hv] at hv
    rw [if_neg hmark, displacement, hv]

/-- **Where a branch to a symbol lands.** -/
theorem lands_iff (h : encodeItem U symbols base it = .ok w) (hbranch : isBranch it.mnemonic = true)
    {target : Str} (hops : it.operands = [target])
    (hstrip : U.strip target = target ∨ target = ['1'])
    (hnames : ∀ name v, symbols.lookup name = some v → Nameable U name) {v : ℤ}
    (hv : symbols.lookup (symbolName U target) = some v) :
    (∃ cond disp, decode w = .branch cond disp ∧ (base + it.index + disp) % 1024 = v % 1024) ↔
      (target.head? = some '#' → (base + it.index) % 1024 = 0) := by
  obtain ⟨target', cond, disp, hops', hdisp, henc⟩ := branch_cases h hbranch
  obtain rfl : target = target' := by simpa [hops] using hops'
  have hdecode := decode_encodeBranch henc
  rw [displacement_eq hstrip hnames hv] at hdisp
  have hvalue := Except.ok.inj hdisp
  have hlands : (∃ cond disp, decode w = .branch cond disp ∧
      (base + it.index + disp) % 1024 = v % 1024) ↔
      (base + it.index + disp) % 1024 = v % 1024 := by
    constructor
    · rintro ⟨cond', disp', hd, hmod⟩
      obtain ⟨-, rfl⟩ := Decoded.branch.inj (hdecode.symm.trans hd)
      exact hmod
    · exact fun hmod => ⟨cond.code, disp, hdecode, hmod⟩
  rw [hlands]
  by_cases hmark : target.head? = some '#'
  -- the address itself has been taken for the distance
  · rw [if_pos hmark] at hvalue
    rw [← hvalue, imp_iff_right hmark]
    omega
  · rw [if_neg hmark] at hvalue
    rw [← hvalue]
    exact iff_of_true (by omega) fun hc => absurd hc hmark

/-! ### Names -/

section Names

variable {p p' : Pass Loc} {l : Loc × Str} {lines : List (Loc × Str)} {name : Str} {v : ℤ}

theorem mem_bindPending : (name, v) ∈ (p.bindPending base).symbols ↔
    name ∈ p.pending ∧ v = base + p.index ∨ (name, v) ∈ p.symbols := by
  rw [Pass.bindPending, List.mem_append, List.mem_map]
  refine or_congr_left ?_
  constructor
  · rintro ⟨name', hname, heq⟩
    obtain ⟨rfl, rfl⟩ := Prod.mk.inj heq
    exact ⟨hname, rfl⟩
  · rintro ⟨hname, rfl⟩
    exact ⟨name, hname, rfl⟩

theorem not_mem_of_lookup (h : symbols.lookup name = none) : (name, v) ∉ symbols := by
  intro hmem
  simpa using List.lookup_eq_none_iff.mp h _ hmem

/-- No name has two values, and a pending one has none but that it waits for. -/
structure Consistent (base : ℤ) (p : Pass Loc) : Prop where
  one : ∀ name v v', (name, v) ∈ p.symbols → (name, v') ∈ p.symbols → v = v'
  waits : ∀ name ∈ p.pending, ∀ v, (name, v) ∈ p.symbols → v = base + p.index

theorem consistent_start : Consistent base (Pass.start : Pass Loc) where
  one := fun _ _ _ h => absurd h List.not_mem_nil
  waits := fun _ h => absurd h List.not_mem_nil

theorem Consistent.bindPending (hp : Consistent base p) (k : ℕ) :
    Consistent base { p.bindPending base with index := k } where
  one := by
    intro name v v' hv hv'
    rcases mem_bindPending.mp hv with ⟨hname, rfl⟩ | hv <;>
      rcases mem_bindPending.mp hv' with ⟨hname', rfl⟩ | hv'
    · rfl
    · exact (hp.waits name hname v' hv').symm
    · exact hp.waits name hname' v hv
    · exact hp.one name v v' hv hv'
  waits := fun _ h => absurd h List.not_mem_nil

/-- **A line that keeps clear of pending labels** keeps the names consistent. -/
theorem Consistent.line (hp : Consistent base p) (hfresh : Fresh U base p l)
    (h : firstPassLine U base p l = .ok p') : Consistent base p' := by
  obtain ⟨hnew, hstep⟩ := firstPassLine_cases h
  have hlabels : Consistent base { p with pending := p.pending ++ lineLabels U l.2 } := by
    refine ⟨hp.one, ?_⟩
    intro name hname v hv
    rcases List.mem_append.mp hname with hname | hname
    · exact hp.waits name hname v hv
    · exact absurd hv (not_mem_of_lookup (hnew name hname))
  cases hstep with
  | blank hs => exact hlabels
  | none hs => exact hlabels.bindPending p.index
  | emit hs =>
    have hbound := hlabels.bindPending (p.index + 1)
    exact ⟨hbound.one, hbound.waits⟩
  | @equ name value v hs hnone hv =>
    -- the name is not in the table, but it may be pending
    constructor
    · intro name' v₁ v₂ h₁ h₂
      rcases List.mem_cons.mp h₁ with h₁ | h₁ <;> rcases List.mem_cons.mp h₂ with h₂ | h₂
      · exact (Prod.mk.inj h₁).2.trans (Prod.mk.inj h₂).2.symm
      · rw [(Prod.mk.inj h₁).1] at h₂
        exact absurd h₂ (not_mem_of_lookup hnone)
      · rw [(Prod.mk.inj h₂).1] at h₁
        exact absurd h₁ (not_mem_of_lookup hnone)
      · exact hp.one name' v₁ v₂ h₁ h₂
    · intro name' hname' v' hv'
      rcases List.mem_cons.mp hv' with heq | hv'
      · obtain ⟨rfl, rfl⟩ := Prod.mk.inj heq
        exact Except.ok.inj (hv.symm.trans (hfresh name' value hs hname'))
      · exact hlabels.waits name' hname' v' hv'

theorem consistent_passLines (hp : Consistent base p) (h : passLines U base p lines = .ok p')
    (hfresh : ∀ before l after q, lines = before ++ l :: after →
      passLines U base p before = .ok q → Fresh U base q l) : Consistent base p' := by
  induction lines generalizing p with
  | nil =>
    obtain rfl := Except.ok.inj h
    exact hp
  | cons l rest ih =>
    obtain ⟨q, hline, hrest⟩ := passLines_cons.mp h
    refine ih (hp.line (hfresh [] l rest p rfl rfl) hline) hrest ?_
    rintro before l' after q' rfl hbefore
    exact hfresh (l :: before) l' after q' rfl (passLines_cons.mpr ⟨q, hline, hbefore⟩)

/-- What a line makes of the pending labels: they are bound to the address, or still pending. -/
theorem mem_of_line (h : firstPassLine U base p l = .ok p') :
    (∀ x ∈ p.symbols, x ∈ p'.symbols) ∧
      ∀ name ∈ p.pending ++ lineLabels U l.2, (name, base + p.index) ∈ p'.symbols ∨
        name ∈ p'.pending ∧ p'.index = p.index := by
  obtain ⟨-, hstep⟩ := firstPassLine_cases h
  cases hstep with
  | blank hs => exact ⟨fun _ hx => hx, fun _ hname => .inr ⟨hname, rfl⟩⟩
  | none hs =>
    exact ⟨fun x hx => mem_bindPending.mpr (.inr hx),
      fun name hname => .inl (mem_bindPending.mpr (.inl ⟨hname, rfl⟩))⟩
  | emit hs =>
    exact ⟨fun x hx => mem_bindPending.mpr (.inr hx),
      fun name hname => .inl (mem_bindPending.mpr (.inl ⟨hname, rfl⟩))⟩
  | equ hs => exact ⟨fun _ hx => List.mem_cons_of_mem _ hx, fun _ hname => .inr ⟨hname, rfl⟩⟩

/-- **A pending label gets the address it waits for**, and nothing that was bound is forgotten. -/
theorem mem_of_passLines (h : passLines U base p lines = .ok p') :
    (∀ x ∈ p.symbols, x ∈ (p'.bindPending base).symbols) ∧
      ∀ name ∈ p.pending, (name, base + p.index) ∈ (p'.bindPending base).symbols := by
  induction lines generalizing p with
  | nil =>
    obtain rfl := Except.ok.inj h
    exact ⟨fun x hx => mem_bindPending.mpr (.inr hx),
      fun name hname => mem_bindPending.mpr (.inl ⟨hname, rfl⟩)⟩
  | cons l rest ih =>
    obtain ⟨q, hline, hrest⟩ := passLines_cons.mp h
    obtain ⟨hkeeps, hpending⟩ := mem_of_line hline
    obtain ⟨hkeeps', hpending'⟩ := ih hrest
    refine ⟨fun x hx => hkeeps' x (hkeeps x hx), fun name hname => ?_⟩
    rcases hpending name (List.mem_append_left _ hname) with hbound | ⟨hwaits, hindex⟩
    · exact hkeeps' _ hbound
    · exact hindex ▸ hpending' name hwaits

end Names

/-! ### Accepted sources -/

/-- What the assembler has made of a source that it accepts. -/
structure Accepted (U : Unicode) (base : ℤ) (lines : List (Loc × Str)) (out : Output Loc) :
    Prop where
  pass : ∃ p, passLines U base Pass.start lines = .ok p ∧
    out.symbols = (p.bindPending base).symbols ∧ out.items = p.items
  encoded : List.Forall₂ (fun it w => encodeItem U out.symbols base it = .ok w) out.items out.code
  nonzero : ∀ it w, (it, w) ∈ out.items.zip out.code → w ≠ 0

section Accepted

variable {lines : List (Loc × Str)} {out : Output Loc} {name : Str} {v : ℤ}

theorem accepted_of_assemble (h : assemble U lines base = .ok out) : Accepted U base lines out := by
  rw [assemble] at h
  obtain ⟨⟨symbols, items⟩, hfirst, h⟩ := bind_eq_ok.mp h
  obtain ⟨code, hcode, h⟩ := bind_eq_ok.mp h
  obtain ⟨p, hpass, hp⟩ := bind_eq_ok.mp hfirst
  obtain ⟨hsymbols, hitems⟩ := Prod.mk.inj (Except.ok.inj hp)
  cases hzero : (items.zip code).find? fun x => x.2 == 0 with
  | some x =>
    simp only [hzero] at h
    cases h
  | none =>
    simp only [hzero] at h
    obtain rfl := Except.ok.inj h
    refine ⟨⟨p, hpass, hsymbols.symm, hitems.symm⟩, ?_, ?_⟩
    · exact (Assembler.forall₂_of_mapM hcode).imp fun it w hw => reportAt_eq_ok.mp hw
    · intro it w hmem
      have hnone := List.find?_eq_none.mp hzero (it, w) hmem
      simpa using hnone

variable (ha : Accepted U base lines out)

include ha

theorem Accepted.items_eq : out.items = instructionsFrom U 0 lines := by
  obtain ⟨p, hpass, -, hitems⟩ := ha.pass
  rw [hitems, (items_passLines hpass).1]
  rfl

/-- An instruction of the source has its word. -/
theorem Accepted.exists_word {it : Item Loc} (hit : it ∈ instructionsFrom U 0 lines) :
    ∃ w, (it, w) ∈ out.items.zip out.code := by
  rw [← ha.items_eq, ← List.map_fst_zip ha.encoded.length_eq.le] at hit
  obtain ⟨⟨_, w⟩, hmem, rfl⟩ := List.mem_map.mp hit
  exact ⟨w, hmem⟩

theorem Accepted.length_eq : out.code.length = (instructionsFrom U 0 lines).length := by
  rw [← ha.items_eq, ha.encoded.length_eq]

/-- The names of the symbol table are those that the source declares. -/
theorem Accepted.declared_iff :
    (∃ v, out.symbols.lookup name = some v) ↔ name ∈ declared U lines := by
  obtain ⟨p, hpass, hsymbols, -⟩ := ha.pass
  have hnames : name ∈ p.names ↔ _ := mem_names_passLines hpass
  have hbind : name ∈ (p.bindPending base).names ↔ name ∈ p.names := mem_names_bindPending
  have hkeys : name ∈ (p.bindPending base).names ↔
      ∃ v, (p.bindPending base).symbols.lookup name = some v := by
    have hbound : (p.bindPending base).names = (p.bindPending base).symbols.map Prod.fst :=
      List.append_nil _
    rw [← Option.isSome_iff_exists, List.lookup_isSome_iff, hbound, List.mem_map]
    simp only [beq_iff_eq, eq_comm (a := name)]
  rw [hsymbols, ← hkeys, hbind, hnames]
  exact or_iff_right List.not_mem_nil

theorem Accepted.nameable (h : out.symbols.lookup name = some v) : Nameable U name :=
  nameable_of_mem_declared (ha.declared_iff.mp ⟨v, h⟩)

/-- **An instruction is a word that the hardware has.** -/
theorem Accepted.word_known {it : Item Loc} {w : Word} (hmem : (it, w) ∈ out.items.zip out.code)
    (hword : it.mnemonic ≠ dotWord) : w ≠ 0 ∧ (decode w).Known := by
  obtain ⟨i, hi⟩ := exists_instr (List.forall₂_zip ha.encoded hmem) hword
  exact ⟨ha.nonzero it w hmem, Instr.decode_encode hi ▸ i.known_decoded⟩

/-- **A branch to a symbol lands on it**, unless its operand has a marker. -/
theorem Accepted.branches_iff :
    (∀ it w, (it, w) ∈ out.items.zip out.code → isBranch it.mnemonic = true →
      ∀ target, it.operands = [target] → ∀ v, out.symbols.lookup (symbolName U target) = some v →
        ∃ cond disp, decode w = .branch cond disp ∧ (base + it.index + disp) % 1024 = v % 1024) ↔
    ∀ it ∈ instructionsFrom U 0 lines, isBranch it.mnemonic = true →
      ∀ rest, it.operands = ['#' :: rest] → symbolName U ('#' :: rest) ∈ declared U lines →
        (base + it.index) % 1024 = 0 := by
  have hlands {it : Item Loc} {w : Word} (hmem : (it, w) ∈ out.items.zip out.code)
      (hbranch : isBranch it.mnemonic = true) {target : Str} (hops : it.operands = [target])
      {v : ℤ} (hv : out.symbols.lookup (symbolName U target) = some v) := by
    have hit : it ∈ instructionsFrom U 0 lines := ha.items_eq ▸ (List.of_mem_zip hmem).1
    have hstrip := operand_cases hit (t := target) (by rw [hops]; exact List.mem_singleton_self _)
    exact lands_iff (List.forall₂_zip ha.encoded hmem) hbranch hops hstrip
      (fun _ _ h => ha.nameable h) hv
  constructor
  · intro h it hit hbranch rest hops hdeclared
    obtain ⟨w, hmem⟩ := ha.exists_word hit
    obtain ⟨v, hv⟩ := ha.declared_iff.mpr hdeclared
    exact (hlands hmem hbranch hops hv).mp (h it w hmem hbranch _ hops v hv) rfl
  · intro h it w hmem hbranch target hops v hv
    refine (hlands hmem hbranch hops hv).mpr ?_
    intro hmark
    obtain ⟨rest, rfl⟩ := List.head?_eq_some_iff.mp hmark
    have hit : it ∈ instructionsFrom U 0 lines := ha.items_eq ▸ (List.of_mem_zip hmem).1
    exact h it hit hbranch rest hops (ha.declared_iff.mp ⟨v, hv⟩)

/-- **Names have one value**, unless a constant comes while its name is a pending label. -/
theorem Accepted.names_iff :
    (∀ name v v', (name, v) ∈ out.symbols → (name, v') ∈ out.symbols → v = v') ↔
      ∀ before l after p, lines = before ++ l :: after →
        passLines U base Pass.start before = .ok p → Fresh U base p l := by
  obtain ⟨pend, hpass, hsymbols, -⟩ := ha.pass
  rw [hsymbols]
  constructor
  · rintro h before l after p rfl hbefore name value hs hpending
    obtain ⟨q, hq, hrest⟩ := passLines_append.mp hpass
    obtain rfl := Except.ok.inj (hq.symm.trans hbefore)
    obtain ⟨p', hline, hafter⟩ := passLines_cons.mp hrest
    obtain ⟨hkeeps, hwaits⟩ := mem_of_passLines hafter
    obtain ⟨-, hstep⟩ := firstPassLine_cases hline
    -- the constant is in the table, and its label will be
    cases hstep with
    | blank hs' | none hs' | emit hs' => cases hs'.symm.trans hs
    | equ hs' hnew hv =>
      obtain ⟨rfl, rfl⟩ := Statement.equ.inj (Option.some_inj.mp (hs'.symm.trans hs))
      have hconst := hkeeps _ List.mem_cons_self
      have hlabel := hwaits _ hpending
      rw [h _ _ _ hconst hlabel] at hv
      exact hv
  · intro h
    exact ((consistent_passLines consistent_start hpass h).bindPending pend.index).one

/-- **The guard rails hold just when the source keeps clear of the gaps.** -/
theorem Accepted.guardRails_iff : GuardRails U base out ↔ KeepsClear U base lines := by
  constructor
  · intro h
    exact ⟨ha.branches_iff.mp h.branches, ha.names_iff.mp h.names, ha.length_eq ▸ h.area⟩
  · intro h
    exact ⟨fun _ _ => ha.word_known, ha.branches_iff.mpr h.bare, ha.names_iff.mpr h.fresh,
      ha.length_eq.symm ▸ h.area⟩

end Accepted

/-! ### The assembler -/

section Main

variable {Path : Type} [DecidableEq Path] {fs : Files Path} {filename : Path}
  {lines : List ((Path × ℕ) × Str)} {out : Output (Path × ℕ)}

/-- What `main` accepts, `_assemble` has accepted. -/
theorem accepted_of_main (h : main U fs filename base = .ok out)
    (hlines : readSource U fs (maxIncludeDepth + 1) [] (fs.resolve filename) = .ok lines) :
    Accepted U base lines out := by
  rw [main] at h
  by_cases hclimbs : fs.climbs filename = true
  · rw [if_pos hclimbs] at h
    cases h
  rw [if_neg hclimbs] at h
  by_cases hfile : (fs.text (fs.resolve filename)).isNone = true
  · simp only [if_pos hfile] at h
    cases h
  simp only [if_neg hfile] at h
  obtain ⟨lines', hread, h⟩ := bind_eq_ok.mp h
  obtain rfl := Except.ok.inj (hread.symm.trans hlines)
  obtain ⟨out', hassemble, h⟩ := bind_eq_ok.mp h
  -- the check is against the whole RAM
  by_cases hfit : 1024 < base + out'.code.length
  · rw [if_pos hfit] at h
    cases h
  rw [if_neg hfit] at h
  obtain rfl := Except.ok.inj h
  exact accepted_of_assemble hassemble

end Main

/-- A machine with one file. -/
def oneFile (text : Str) : Files Unit where
  text := fun _ => some text
  resolve := id
  sibling := fun path _ => path
  climbs := fun _ => false

/-- **The guard rails.** A program that the assembler accepts has them just when its source keeps
clear of the three gaps. -/
theorem guard_rails_iff {Path : Type} [DecidableEq Path] (U : Unicode) (fs : Files Path)
    (filename : Path) (base : ℤ) (lines : List ((Path × ℕ) × Str)) (out : Output (Path × ℕ))
    (hlines : readSource U fs (maxIncludeDepth + 1) [] (fs.resolve filename) = .ok lines)
    (h : main U fs filename base = .ok out) : GuardRails U base out ↔ KeepsClear U base lines :=
  (accepted_of_main h hlines).guardRails_iff

/-- `X: BUC X`, which branches to itself. -/
theorem guard_rails_iff_bare :
    GuardRails ascii 8 ⟨[(['X'], 8)], [0xCE00], [⟨((), 1), ['B', 'U', 'C'], [['X']], 0⟩]⟩ ↔
      KeepsClear ascii 8 [(((), 1), ['X', ':', ' ', 'B', 'U', 'C', ' ', 'X'])] :=
  guard_rails_iff ascii (oneFile ['X', ':', ' ', 'B', 'U', 'C', ' ', 'X']) () 8 _ _
    (by decide +kernel) (by decide +kernel)

/-- `X: BUC #X`. -/
def marked : Str := ['X', ':', ' ', 'B', 'U', 'C', ' ', '#', 'X']

/-- It is assembled to a branch 8 words ahead. -/
def markedOut : Output (Unit × ℕ) where
  symbols := [(['X'], 8)]
  code := [0xCE08]
  items := [⟨((), 1), ['B', 'U', 'C'], [['#', 'X']], 0⟩]

/-- `X: .equ X, 5` before a `NOP`. -/
def constant : Str :=
  ['X', ':', ' ', '.', 'e', 'q', 'u', ' ', 'X', ',', ' ', '5', '\n', 'N', 'O', 'P']

/-- The name is bound to the constant and then to the address. -/
def constantOut : Output (Unit × ℕ) where
  symbols := [(['X'], 8), (['X'], 5)]
  code := [0xCE01]
  items := [⟨((), 2), ['B', 'U', 'C'], [['1']], 0⟩]

/-- `NOP`. -/
def nop : Str := ['N', 'O', 'P']

/-- It is assembled wherever the RAM has a word. -/
def nopOut : Output (Unit × ℕ) where
  symbols := []
  code := [0xCE01]
  items := [⟨((), 1), ['B', 'U', 'C'], [['1']], 0⟩]

/-- One program for each gap: all are accepted. -/
theorem not_guard_rails :
    (main ascii (oneFile marked) () 8 = .ok markedOut ∧ ¬GuardRails ascii 8 markedOut) ∧
      (main ascii (oneFile constant) () 8 = .ok constantOut ∧ ¬GuardRails ascii 8 constantOut) ∧
      (main ascii (oneFile nop) () 256 = .ok nopOut ∧ ¬GuardRails ascii 256 nopOut) := by
  refine ⟨⟨by decide +kernel, fun h => ?_⟩, ⟨by decide +kernel, fun h => ?_⟩,
    by decide +kernel, fun h => ?_⟩
  · obtain ⟨cond, disp, hdecode, hlands⟩ :=
      h.branches _ _ List.mem_cons_self (by decide) ['#', 'X'] rfl 8 (by decide)
    have hword : decode 0xCE08 = .branch 14 8 := by decide
    obtain ⟨-, rfl⟩ := Decoded.branch.inj (hword.symm.trans hdecode)
    exact absurd hlands (by decide)
  · exact absurd (h.names ['X'] 8 5 (by decide) (by decide)) (by decide)
  · exact absurd h.area (by decide)

end AsmText

end Fmma
