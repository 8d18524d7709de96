import Fmma.Assembler.Semantics

/-!
# The two passes

What the first pass has collected after a part of the source, and what that makes of the whole: an
item for each instruction, and a symbol table that agrees with what the names stand for.
-/

namespace Fmma

namespace Assembler

variable {σ : Type}

/-- What is encoded for a statement: the pseudo-instructions are expanded. -/
def Stmt.expand : Stmt σ → Stmt σ
  | .ldi rd imm => .itype .MOV rd imm
  | .nop => .branch .UC (.num 1)
  | stmt => stmt

@[simp]
theorem instructions_nil : instructions ([] : List (Line σ)) = [] := rfl

theorem instructions_append (a b : List (Line σ)) :
    instructions (a ++ b) = instructions a ++ instructions b := List.filterMap_append

variable [DecidableEq σ] {base : ℕ} {done rest : List (Line σ)} {name : σ} {l : Line σ}

/-! ### Names of a longer source -/

theorem labelIndex_append (done rest : List (Line σ)) (name : σ) :
    labelIndex (done ++ rest) name =
      (labelIndex done name <|> (labelIndex rest name).map (· + (instructions done).length)) := by
  induction done with
  | nil => simp [labelIndex]
  | cons l done ih =>
    have hcons : instructions (l :: done) = instructions [l] ++ instructions done :=
      instructions_append [l] done
    simp only [List.cons_append, labelIndex]
    split_ifs with hl
    · rfl
    · rw [ih, hcons, List.length_append]
      cases labelIndex done name with
      | some k => rfl
      | none => cases labelIndex rest name <;> simp [Nat.add_assoc, Nat.add_comm]

theorem labelIndex_singleton (l : Line σ) (name : σ) :
    labelIndex [l] name = if name ∈ l.labels then some 0 else none := by
  simp only [labelIndex, Option.map_none]

omit [DecidableEq σ] in
theorem Defines.append {v : Operand σ} (h : Defines done name v) :
    Defines (done ++ rest) name v := by
  obtain ⟨l, hl, hstmt⟩ := h
  exact ⟨l, List.mem_append_left rest hl, hstmt⟩

theorem Means.append {v : Int} (h : Means base done name v) : Means base (done ++ rest) name v := by
  induction h with
  | label hk => exact .label (by rw [labelIndex_append, hk]; rfl)
  | num hd => exact .num hd.append
  | sym hd _ ih => exact .sym hd.append ih

/-! ### The first pass -/

/-- What the first pass has collected, once it has read a part of the source. -/
structure Collected (base : ℕ) (done : List (Line σ)) (p : Pass σ) : Prop where
  index : p.index = (instructions done).length
  items : p.items = (instructions done).mapIdx fun i stmt => ⟨stmt.expand, i⟩
  /-- The pending labels are those of the next instruction. -/
  pending : ∀ name ∈ p.pending, labelIndex done name = some p.index
  /-- A label is pending or has its address in the table. -/
  labels : ∀ name k, labelIndex done name = some k →
    name ∈ p.pending ∨ p.symbols.lookup name = some (base + k : ℕ)
  /-- The table holds what the names stand for. -/
  sound : ∀ x ∈ p.symbols, Means base done x.1 x.2
  /-- A constant is in the table, and so is the name it is defined by. -/
  constants : ∀ name v, Defines done name v → (p.symbols.lookup name).isSome = true ∧
    ∀ other, v = .sym other → (p.symbols.lookup other).isSome = true

theorem lookup_isSome_append {table more : Symbols σ} (h : (table.lookup name).isSome = true) :
    ((more ++ table).lookup name).isSome = true := by
  rw [List.lookup_append, Option.isSome_or, h, Bool.or_true]

/-- Names that get one value. -/
theorem lookup_map_const (names : List σ) (v : Int) (name : σ) :
    (names.map fun n => (n, v)).lookup name = if name ∈ names then some v else none := by
  induction names with
  | nil => rfl
  | cons n names ih =>
    rw [List.map_cons, List.lookup_cons]
    by_cases hn : name = n
    · simp [hn]
    · rw [beq_false_of_ne hn]
      simp [hn, ih]

/-- What a table holds for a name is in it. -/
theorem mem_of_lookup_eq {table : Symbols σ} {v : Int} (h : table.lookup name = some v) :
    (name, v) ∈ table := by
  induction table with
  | nil => cases h
  | cons x table ih =>
    rw [List.lookup_cons] at h
    by_cases hn : name = x.1
    · rw [hn, beq_self_eq_true] at h
      rw [hn, ← Option.some_inj.mp h]
      exact List.mem_cons_self
    · rw [beq_false_of_ne hn] at h
      exact List.mem_cons_of_mem x (ih h)

theorem collected_nil (base : ℕ) : Collected base ([] : List (Line σ)) ⟨[], [], 0, []⟩ where
  index := rfl
  items := rfl
  pending := fun _ h => absurd h List.not_mem_nil
  labels := fun _ _ h => absurd h (by simp [labelIndex])
  sound := fun _ h => absurd h List.not_mem_nil
  constants := by
    rintro name v ⟨l, hl, -⟩
    cases hl

/-- The labels in front of a line. -/
theorem addLabels_spec {p p' : Pass σ} {labels : List σ} (h : addLabels p labels = .ok p') :
    p' = { p with pending := p.pending ++ labels } ∧
      ∀ name ∈ labels, p.symbols.lookup name = none ∧ name ∉ p.pending := by
  induction labels generalizing p with
  | nil =>
    have hp : p = p' := Except.ok.inj h
    exact ⟨by rw [← hp, List.append_nil], fun _ h => absurd h List.not_mem_nil⟩
  | cons name labels ih =>
    rw [addLabels] at h
    split_ifs at h with hdup
    obtain ⟨hp, hnew⟩ := ih h
    simp only [Bool.or_eq_true, not_or, Bool.not_eq_true, Option.isSome_eq_false_iff,
      Option.isNone_iff_eq_none, List.contains_eq_mem, decide_eq_false_iff_not] at hdup
    refine ⟨by rw [hp, List.append_assoc, List.singleton_append], ?_⟩
    intro other hother
    rcases List.mem_cons.mp hother with rfl | hother
    · exact hdup
    · obtain ⟨hnone, hpending⟩ := hnew other hother
      exact ⟨hnone, fun hc => hpending (List.mem_append_left _ hc)⟩

/-- The labels are read: they are pending. -/
theorem Collected.addLabels {p : Pass σ} (h : Collected base done p) {labels : List σ}
    (hnew : ∀ name ∈ labels, p.symbols.lookup name = none ∧ name ∉ p.pending) :
    Collected base (done ++ [⟨labels, none⟩]) { p with pending := p.pending ++ labels } := by
  have hinst : instructions (done ++ [(⟨labels, none⟩ : Line σ)]) = instructions done := by
    rw [instructions_append]
    exact List.append_nil _
  have hfresh : ∀ name ∈ labels, labelIndex done name = none := by
    intro name hname
    obtain ⟨hnone, hpending⟩ := hnew name hname
    by_contra hsome
    obtain ⟨k, hk⟩ := Option.ne_none_iff_exists'.mp hsome
    rcases h.labels name k hk with hp | ht
    · exact hpending hp
    · rw [hnone] at ht
      cases ht
  have hindex : ∀ name, labelIndex (done ++ [(⟨labels, none⟩ : Line σ)]) name =
      (labelIndex done name <|> if name ∈ labels then some p.index else none) := by
    intro name
    rw [labelIndex_append, labelIndex_singleton, h.index]
    split_ifs <;> simp
  refine ⟨?_, ?_, ?_, ?_, fun x hx => (h.sound x hx).append, ?_⟩
  · rw [hinst]
    exact h.index
  · rw [hinst]
    exact h.items
  · intro name hname
    rw [hindex]
    rcases List.mem_append.mp hname with hp | hl
    · rw [h.pending name hp]
      rfl
    · rw [hfresh name hl, if_pos hl]
      rfl
  · intro name k hk
    rw [hindex] at hk
    cases hdone : labelIndex done name with
    | some k' =>
      rw [hdone] at hk
      obtain rfl := Option.some_inj.mp hk
      exact (h.labels name k' hdone).imp_left (List.mem_append_left labels)
    | none =>
      rw [hdone] at hk
      by_cases hl : name ∈ labels
      · exact .inl (List.mem_append_right _ hl)
      · rw [if_neg hl] at hk
        cases hk
  · rintro name v ⟨l, hl, hstmt⟩
    rcases List.mem_append.mp hl with hl | hl
    · exact h.constants name v ⟨l, hl, hstmt⟩
    · rw [List.mem_singleton.mp hl] at hstmt
      cases hstmt

/-- The pending labels get the address of the next word. -/
theorem Collected.bindPending {p : Pass σ} (h : Collected base done p) :
    Collected base done (bindPending base p) where
  index := h.index
  items := h.items
  pending := fun _ hname => absurd hname List.not_mem_nil
  labels := by
    intro name k hk
    refine .inr ?_
    simp only [Assembler.bindPending, List.lookup_append, lookup_map_const]
    by_cases hp : name ∈ p.pending
    · have hkp : k = p.index := Option.some_inj.mp (hk.symm.trans (h.pending name hp))
      rw [if_pos hp, hkp]
      rfl
    · rw [if_neg hp]
      exact (h.labels name k hk).resolve_left hp
  sound := by
    intro x hx
    rcases List.mem_append.mp hx with hx | hx
    · obtain ⟨name, hname, rfl⟩ := List.mem_map.mp hx
      exact .label (h.pending name hname)
    · exact h.sound x hx
  constants := by
    intro name v hd
    obtain ⟨hname, hother⟩ := h.constants name v hd
    exact ⟨lookup_isSome_append hname, fun other hv => lookup_isSome_append (hother other hv)⟩

/-- An instruction is emitted, after the labels in front of it have got their address. -/
theorem Collected.emit {p : Pass σ} (h : Collected base done p) (hpending : p.pending = [])
    {stmt : Stmt σ} (hstmt : stmt.isInstruction = true) :
    Collected base (done ++ [⟨[], some stmt⟩]) (emit stmt.expand p) := by
  have hinst : instructions (done ++ [(⟨[], some stmt⟩ : Line σ)]) =
      instructions done ++ [stmt] := by
    rw [instructions_append]
    simp [instructions, Line.instruction?, Option.filter, hstmt]
  have hindex : ∀ name, labelIndex (done ++ [(⟨[], some stmt⟩ : Line σ)]) name =
      labelIndex done name := by
    intro name
    rw [labelIndex_append, labelIndex_singleton]
    simp
  refine ⟨?_, ?_, ?_, ?_, fun x hx => (h.sound x hx).append, ?_⟩
  · rw [hinst, List.length_append, ← h.index]
    rfl
  · rw [hinst, List.mapIdx_append]
    simp only [Assembler.emit, h.items, h.index, List.mapIdx_cons, List.mapIdx_nil, Nat.zero_add]
  · intro name hname
    have hname : name ∈ p.pending := hname
    rw [hpending] at hname
    cases hname
  · intro name k hk
    rw [hindex] at hk
    exact h.labels name k hk
  · rintro name v ⟨l, hl, hl'⟩
    rcases List.mem_append.mp hl with hl | hl
    · exact h.constants name v ⟨l, hl, hl'⟩
    · rw [List.mem_singleton.mp hl] at hl'
      obtain rfl := Option.some_inj.mp hl'
      cases hstmt

/-- A constant is defined. -/
theorem Collected.define {p : Pass σ} (h : Collected base done p) {value : Operand σ} {v : Int}
    (hnew : p.symbols.lookup name = none) (hvalue : parseValue p.symbols value = .ok v) :
    Collected base (done ++ [⟨[], some (.equ name value)⟩])
      { p with symbols := (name, v) :: p.symbols } := by
  have hinst : instructions (done ++ [(⟨[], some (.equ name value)⟩ : Line σ)]) =
      instructions done := by
    rw [instructions_append]
    exact List.append_nil _
  have hindex : ∀ n, labelIndex (done ++ [(⟨[], some (.equ name value)⟩ : Line σ)]) n =
      labelIndex done n := by
    intro n
    rw [labelIndex_append, labelIndex_singleton]
    simp
  have hdefines : Defines (done ++ [(⟨[], some (.equ name value)⟩ : Line σ)]) name value :=
    ⟨_, List.mem_append_right _ List.mem_cons_self, rfl⟩
  have hkeep : ∀ {n : σ}, (p.symbols.lookup n).isSome = true →
      (((name, v) :: p.symbols).lookup n).isSome = true := by
    intro n hn
    rw [← List.singleton_append]
    exact lookup_isSome_append hn
  have hother : ∀ other, value = .sym other → p.symbols.lookup other = some v := by
    rintro other rfl
    rw [parseValue] at hvalue
    split at hvalue
    · next w hw => rw [hw, Except.ok.inj hvalue]
    · cases hvalue
  refine ⟨?_, ?_, ?_, ?_, ?_, ?_⟩
  · rw [hinst]
    exact h.index
  · rw [hinst]
    exact h.items
  · intro n hn
    rw [hindex]
    exact h.pending n hn
  · intro n k hk
    rw [hindex] at hk
    refine (h.labels n k hk).imp_right fun ht => ?_
    -- the new name is none in the table, but it may be one of the pending
    have hne : n ≠ name := by
      rintro rfl
      rw [hnew] at ht
      cases ht
    rw [List.lookup_cons, beq_false_of_ne hne]
    exact ht
  · intro x hx
    rcases List.mem_cons.mp hx with rfl | hx
    · cases value with
      | num w => exact .num (Except.ok.inj hvalue ▸ hdefines)
      | sym other => exact .sym hdefines (h.sound _ (mem_of_lookup_eq (hother other rfl))).append
    · exact (h.sound x hx).append
  · rintro n w ⟨l, hl, hl'⟩
    rcases List.mem_append.mp hl with hl | hl
    · obtain ⟨hn, hother⟩ := h.constants n w ⟨l, hl, hl'⟩
      exact ⟨hkeep hn, fun other hw => hkeep (hother other hw)⟩
    · rw [List.mem_singleton.mp hl] at hl'
      obtain ⟨rfl, rfl⟩ := (Stmt.equ.injEq ..).mp (Option.some_inj.mp hl')
      refine ⟨by simp, fun other hw => hkeep ?_⟩
      rw [hother other hw]
      rfl

/-- The labels of a line may as well stand on a line of their own. -/
theorem Collected.join {p : Pass σ} {labels : List σ} {stmt : Option (Stmt σ)}
    (h : Collected base (done ++ [⟨labels, none⟩] ++ [⟨[], stmt⟩]) p) :
    Collected base (done ++ [⟨labels, stmt⟩]) p := by
  have hinst : instructions (done ++ [(⟨labels, stmt⟩ : Line σ)]) =
      instructions (done ++ [⟨labels, none⟩] ++ [⟨[], stmt⟩]) := by
    simp only [instructions_append]
    rw [List.append_assoc]
    rfl
  have hindex : ∀ name, labelIndex (done ++ [(⟨labels, stmt⟩ : Line σ)]) name =
      labelIndex (done ++ [⟨labels, none⟩] ++ [⟨[], stmt⟩]) name := by
    intro name
    simp only [labelIndex_append, labelIndex_singleton, List.not_mem_nil, if_false, Option.map_none]
    cases labelIndex done name <;> split_ifs <;> rfl
  have hdefines : ∀ name v, Defines (done ++ [(⟨labels, stmt⟩ : Line σ)]) name v ↔
      Defines (done ++ [⟨labels, none⟩] ++ [⟨[], stmt⟩]) name v := by
    intro name v
    constructor
    · rintro ⟨l, hl, hstmt⟩
      rcases List.mem_append.mp hl with hl | hl
      · exact ⟨l, List.mem_append_left _ (List.mem_append_left _ hl), hstmt⟩
      · rw [List.mem_singleton.mp hl] at hstmt
        exact ⟨⟨[], stmt⟩, List.mem_append_right _ List.mem_cons_self, hstmt⟩
    · rintro ⟨l, hl, hstmt⟩
      rcases List.mem_append.mp hl with hl | hl
      · rcases List.mem_append.mp hl with hl | hl
        · exact ⟨l, List.mem_append_left _ hl, hstmt⟩
        · rw [List.mem_singleton.mp hl] at hstmt
          cases hstmt
      · rw [List.mem_singleton.mp hl] at hstmt
        exact ⟨⟨labels, stmt⟩, List.mem_append_right _ List.mem_cons_self, hstmt⟩
  have hmeans : ∀ {name : σ} {v : Int},
    Means base (done ++ [⟨labels, none⟩] ++ [⟨[], stmt⟩]) name v →
      Means base (done ++ [(⟨labels, stmt⟩ : Line σ)]) name v := by
    intro name v hm
    induction hm with
    | label hk => exact .label (by rw [hindex, hk])
    | num hd => exact .num ((hdefines _ _).mpr hd)
    | sym hd _ ih => exact .sym ((hdefines _ _).mpr hd) ih
  refine ⟨?_, ?_, ?_, ?_, fun x hx => hmeans (h.sound x hx), ?_⟩
  · rw [hinst]
    exact h.index
  · rw [hinst]
    exact h.items
  · intro name hname
    rw [hindex]
    exact h.pending name hname
  · intro name k hk
    rw [hindex] at hk
    exact h.labels name k hk
  · intro name v hd
    exact h.constants name v ((hdefines name v).mp hd)

/-- A line is read. -/
theorem Collected.line {p p' : Pass σ} (h : Collected base done p)
    (hp : firstPassLine base p l = .ok p') : Collected base (done ++ [l]) p' := by
  obtain ⟨labels, stmt⟩ := l
  refine Collected.join ?_
  rw [firstPassLine] at hp
  cases hadd : Assembler.addLabels p labels with
  | error e =>
    rw [hadd] at hp
    cases hp
  | ok q =>
    rw [hadd] at hp
    obtain ⟨hq, hnew⟩ := addLabels_spec hadd
    have hlabels := h.addLabels hnew
    rw [← hq] at hlabels
    have hbound := hlabels.bindPending
    cases stmt with
    | none =>
      obtain rfl := Except.ok.inj hp
      have hnone : ∀ name ∈ ([] : List σ), (Assembler.bindPending (base : Int) q).symbols.lookup
          name = none ∧ name ∉ (Assembler.bindPending (base : Int) q).pending :=
        fun _ hc => absurd hc List.not_mem_nil
      exact hbound.addLabels hnone
    | some stmt =>
      cases stmt with
      | equ name value =>
        simp only [bind, Except.bind] at hp
        split_ifs at hp with hdup
        cases hvalue : parseValue q.symbols value with
        | error e =>
          rw [hvalue] at hp
          cases hp
        | ok v =>
          rw [hvalue] at hp
          obtain rfl := Except.ok.inj hp
          exact hlabels.define (Option.not_isSome_iff_eq_none.mp hdup) hvalue
      | ldi rd imm =>
        obtain rfl := Except.ok.inj hp
        have hstmt : (Stmt.ldi rd imm).isInstruction = true := rfl
        exact hbound.emit rfl hstmt
      | nop =>
        obtain rfl := Except.ok.inj hp
        have hstmt : (Stmt.nop : Stmt σ).isInstruction = true := rfl
        exact hbound.emit rfl hstmt
      | _ =>
        obtain rfl := Except.ok.inj hp
        exact hbound.emit rfl rfl

/-- The lines are read. -/
theorem Collected.lines {p p' : Pass σ} (h : Collected base done p)
    (hp : rest.foldlM (firstPassLine base) p = .ok p') : Collected base (done ++ rest) p' := by
  induction rest generalizing done p with
  | nil =>
    obtain rfl := Except.ok.inj hp
    rwa [List.append_nil]
  | cons l rest ih =>
    rw [List.foldlM_cons] at hp
    cases hline : firstPassLine base p l with
    | error e =>
      rw [hline] at hp
      cases hp
    | ok q =>
      rw [hline] at hp
      have hrest := ih (h.line hline) hp
      rwa [List.append_assoc] at hrest

variable {lines : List (Line σ)} {symbols : Symbols σ} {items : List (Item σ)}

/-- **The first pass**: an item for each instruction, and a table in which a label has its address
and a name has a value it stands for. -/
structure Resolved (base : ℕ) (lines : List (Line σ)) (symbols : Symbols σ)
    (items : List (Item σ)) : Prop where
  items : items = (instructions lines).mapIdx fun i stmt => ⟨stmt.expand, i⟩
  labels : ∀ name k, labelIndex lines name = some k → symbols.lookup name = some (base + k : ℕ)
  sound : ∀ name v, symbols.lookup name = some v → Means base lines name v
  constants : ∀ name v, Defines lines name v → (symbols.lookup name).isSome = true ∧
    ∀ other, v = .sym other → (symbols.lookup other).isSome = true

theorem resolved (h : firstPass lines base = .ok (symbols, items)) :
    Resolved base lines symbols items := by
  rw [firstPass] at h
  cases hp : lines.foldlM (firstPassLine (base : Int)) ⟨[], [], 0, []⟩ with
  | error e =>
    rw [hp] at h
    cases h
  | ok p =>
    rw [hp] at h
    have hread := (collected_nil base).lines hp
    rw [List.nil_append] at hread
    have hend := hread.bindPending
    obtain ⟨rfl, rfl⟩ := Prod.mk.inj (Except.ok.inj h)
    refine ⟨hend.items, fun name k hk => ?_, fun name v hv => ?_, hend.constants⟩
    · exact (hend.labels name k hk).resolve_left List.not_mem_nil
    · exact hend.sound _ (mem_of_lookup_eq hv)

/-- Where no name stands for two values, the table gives the names their values. -/
theorem Resolved.meaning (h : Resolved base lines symbols items) (hone : Unambiguous base lines) :
    Meaning base lines fun name => symbols.lookup name where
  labels := h.labels
  constants := by
    intro name v hd
    obtain ⟨hname, hother⟩ := h.constants name v hd
    refine ⟨?_, hname⟩
    obtain ⟨x, hx⟩ := Option.isSome_iff_exists.mp hname
    have hmeans := h.sound name x hx
    cases v with
    | num w =>
      rw [hx, hone name x w hmeans (.num hd)]
      rfl
    | sym other =>
      obtain ⟨y, hy⟩ := Option.isSome_iff_exists.mp (hother other rfl)
      have hother' := h.sound other y hy
      rw [hx, hone name x y hmeans (.sym hd hother')]
      exact hy.symm

/-- What a name stands for is its value, when the names have values. -/
theorem Means.value {ρ : σ → Option Int} (hρ : Meaning base lines ρ) {v : Int}
    (h : Means base lines name v) : ρ name = some v := by
  induction h with
  | label hk => exact hρ.labels _ _ hk
  | num hd => exact (hρ.constants _ _ hd).1
  | sym hd _ ih => exact (hρ.constants _ _ hd).1.trans ih

theorem Meaning.unambiguous {ρ : σ → Option Int} (hρ : Meaning base lines ρ) :
    Unambiguous base lines := by
  intro name v w hv hw
  exact Option.some_inj.mp ((hv.value hρ).symm.trans (hw.value hρ))

/-! ### The second pass -/

omit [DecidableEq σ] in
/-- What is made of a list, item by item. -/
theorem forall₂_of_mapM {α β ε : Type} {f : α → Except ε β} {l : List α} {l' : List β}
    (h : l.mapM f = .ok l') : List.Forall₂ (fun a b => f a = .ok b) l l' := by
  induction l generalizing l' with
  | nil =>
    obtain rfl := Except.ok.inj h
    exact .nil
  | cons a l ih =>
    rw [List.mapM_cons] at h
    cases ha : f a with
    | error e =>
      rw [ha] at h
      cases h
    | ok b =>
      rw [ha] at h
      cases hl : l.mapM f with
      | error e =>
        rw [hl] at h
        cases h
      | ok bs =>
        rw [hl] at h
        obtain rfl := Except.ok.inj h
        exact .cons ha (ih hl)

/-- **What an accepted source becomes**: a word for each instruction. -/
theorem assemble_spec {code : List Word} (h : assemble lines base = .ok code) :
    ∃ symbols items, Resolved base lines symbols items ∧
      code.length = (instructions lines).length ∧
      ∀ i stmt, (instructions lines)[i]? = some stmt →
        ∃ w, code[i]? = some w ∧ encodeItem ⟨stmt.expand, i⟩ symbols base = .ok w := by
  rw [assemble] at h
  cases hfirst : firstPass lines (base : Int) with
  | error e =>
    rw [hfirst] at h
    cases h
  | ok r =>
    obtain ⟨symbols, items⟩ := r
    rw [hfirst] at h
    cases hcode : items.mapM fun it => encodeItem it symbols base with
    | error e =>
      simp only [bind, Except.bind, hcode] at h
      cases h
    | ok words =>
      simp only [bind, Except.bind, hcode] at h
      split_ifs at h
      obtain rfl := Except.ok.inj h
      have hres := resolved hfirst
      have hall := forall₂_of_mapM hcode
      refine ⟨symbols, items, hres, ?_, fun i stmt hi => ?_⟩
      · rw [← hall.length_eq, hres.items, List.length_mapIdx]
      · have hitem : items[i]? = some ⟨stmt.expand, i⟩ := by
          rw [hres.items, List.getElem?_mapIdx, hi]
          rfl
        have hlt := (List.getElem?_eq_some_iff.mp hitem).1
        have hlt' : i < words.length := by rwa [← hall.length_eq]
        refine ⟨words[i], List.getElem?_eq_getElem hlt', ?_⟩
        have hget := hall.get hlt hlt'
        rw [List.get_eq_getElem, (List.getElem?_eq_some_iff.mp hitem).2] at hget
        exact hget

end Assembler

end Fmma
