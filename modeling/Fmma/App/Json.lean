import Fmma.Lib.Find
import Mathlib.Data.List.Nodup
import Mathlib.Data.List.TakeWhile

/-!
# Fields of a JSON text

`fmma_json.c`: a field is looked for as the text `"name":"`, and its value ends at the next quote.
What that finds is compared with the members of a flat object.
-/

namespace Fmma

/-- The characters of a C string, up to its terminator. -/
abbrev Text := List Char

namespace Text

def quote : Char := Char.ofNat 34

def backslash : Char := Char.ofNat 92

def terminator : Char := Char.ofNat 0

/-- The bytes of a buffer as a C string. -/
def ofBuffer (bytes : List Char) : Text := bytes.takeWhile (· ≠ terminator)

/-- A check of the characters of a text, one by one. -/
theorem forall_of_all {P : Char → Prop} [DecidablePred P] {text : Text}
    (h : (text.all fun c => decide (P c)) = true) : ∀ c ∈ text, P c :=
  fun c hc => of_decide_eq_true (List.all_eq_true.mp h c hc)

end Text

open Text

namespace Json

/-- `"name":"`. -/
def pattern (name : Text) : Text := quote :: name ++ [quote, ':', quote]

/-- `fmma_json_string`: from the first character of the value on. `PATTERN_MAX` is 64. -/
def string (json name : Text) : Option Text :=
  if 64 ≤ (pattern name).length then none else Find.after (pattern name) json

/-- `fmma_json_copy_string`: the value, or nothing and an empty string. -/
def copyString (json name : Text) (outlen : ℕ) : Option Text :=
  match string json name with
  | none => none
  | some v =>
    if quote ∉ v then none
    else
      let value := v.takeWhile (· ≠ quote)
      if outlen < value.length + 1 then none else some value

end Json

/-! ### Flat objects -/

/-- The text between the quotes of a string: a quote in it has a backslash before it. -/
inductive Escaped : Text → Prop
  | nil : Escaped []
  | plain {c : Char} {t : Text} : c ≠ quote → c ≠ backslash → c ≠ terminator → Escaped t →
      Escaped (c :: t)
  | escaped {c : Char} {t : Text} : c ≠ terminator → Escaped t → Escaped (backslash :: c :: t)

/-- A blank between two tokens. -/
def IsBlank (c : Char) : Prop := c = ' ' ∨ c = '\t' ∨ c = '\n' ∨ c = '\r'

/-- The value of a member: a string, or a text without quotes (a number, `true`, `false`, `null`,
an array of such). -/
inductive JsonValue
  | string (raw : Text) (escaped : Escaped raw)
  | bare (raw : Text) (plain : ∀ c ∈ raw, c ≠ quote ∧ c ≠ terminator)

/-- The value as it is written. -/
def JsonValue.text : JsonValue → Text
  | .string raw _ => quote :: raw ++ [quote]
  | .bare raw _ => raw

/-- The blanks of a member that has none. -/
theorem no_blanks : ∀ c ∈ ([] ++ [] ++ [] ++ [] : Text), IsBlank c := by
  rintro c ⟨⟩

/-- A member of an object, with the blanks around its tokens. -/
structure JsonMember where
  before : Text
  name : Text
  beforeColon : Text
  afterColon : Text
  value : JsonValue
  behind : Text
  plain : ∀ c ∈ name, c ≠ quote ∧ c ≠ backslash ∧ c ≠ terminator
  blanks : ∀ c ∈ before ++ beforeColon ++ afterColon ++ behind, IsBlank c

namespace JsonMember

/-- The member through its value. -/
def front (m : JsonMember) : Text :=
  m.before ++ (quote :: m.name ++ (quote :: m.beforeColon ++ (':' :: m.afterColon ++ m.value.text)))

/-- The member as it is written. -/
def text (m : JsonMember) : Text := m.front ++ m.behind

/-- There is no blank around the colon. -/
def Compact (m : JsonMember) : Prop := m.beforeColon = [] ∧ m.afterColon = []

end JsonMember

/-- A flat object, with its members in any order. -/
structure JsonObject where
  lead : Text
  first : JsonMember
  others : List JsonMember
  trail : Text
  blanks : ∀ c ∈ lead ++ trail, IsBlank c
  nodup : ((first :: others).map JsonMember.name).Nodup

namespace JsonObject

variable (o : JsonObject)

def members : List JsonMember := o.first :: o.others

/-- What follows a member. -/
def rest (trail : Text) : List JsonMember → Text
  | [] => '}' :: trail
  | m :: ms => ',' :: (m.text ++ rest trail ms)

/-- The object as it is written. -/
def text : Text := o.lead ++ '{' :: (o.first.text ++ rest o.trail o.others)

/-- How far the members go, through the value of a name. -/
def throughMembers (name : Text) : List JsonMember → ℕ
  | [] => 0
  | m :: ms => if m.name = name then m.front.length else m.text.length + 1 + throughMembers name ms

/-- How long the object is through the value of a name. -/
def through (name : Text) : ℕ := o.lead.length + 1 + throughMembers name o.members

end JsonObject

/-! ### What is found in a flat object -/

/-- What may follow a closing quote. -/
def Mark (c : Char) : Prop := IsBlank c ∨ c = ':' ∨ c = ',' ∨ c = '}'

theorem IsBlank.ne_quote {c : Char} (h : IsBlank c) : c ≠ quote := by
  rcases h with rfl | rfl | rfl | rfl <;> decide

theorem IsBlank.ne_colon {c : Char} (h : IsBlank c) : c ≠ ':' := by
  rcases h with rfl | rfl | rfl | rfl <;> decide

/-- A name that can be looked for. -/
structure Searchable (name : Text) : Prop where
  plain : ∀ c ∈ name, c ≠ quote ∧ c ≠ backslash
  first : ∃ d t, name = d :: t ∧ ¬Mark d
  short : name.length < 60

/-- A name that is not mistaken for what follows a closing quote. The empty name is not either. -/
structure Sought (name : Text) : Prop where
  plain : ∀ c ∈ name, c ≠ quote ∧ c ≠ backslash
  first : ∀ d ∈ name.head?, ¬Mark d
  short : name.length < 60

theorem Searchable.sought {name : Text} (h : Searchable name) : Sought name where
  plain := h.plain
  first := by
    obtain ⟨d, t, rfl, hd⟩ := h.first
    rintro d' ⟨⟩
    exact hd
  short := h.short

theorem Mark.ne_quote {c : Char} (h : Mark c) : c ≠ quote := by
  rcases h with h | rfl | rfl | rfl
  · exact h.ne_quote
  all_goals decide

namespace Json

variable {name raw z : Text} {x : Char}

theorem pattern_ne_nil (name : Text) : pattern name ≠ [] := List.cons_ne_nil _ _

/-- There is no quote in `u`, so no field begins there. -/
theorem after_append {u : Text} (h : ∀ c ∈ u, c ≠ quote) :
    Find.after (pattern name) (u ++ z) = Find.after (pattern name) z := Find.after_append h

theorem after_cons {c : Char} (h : c ≠ quote) :
    Find.after (pattern name) (c :: z) = Find.after (pattern name) z :=
  Find.after_of_elsewhere fun hpre => h (List.cons_prefix_cons.mp hpre).1.symm

/-- No field begins with a closing quote. -/
theorem after_closing (hn : Sought name) (hx : Mark x) :
    Find.after (pattern name) (quote :: x :: z) = Find.after (pattern name) (x :: z) := by
  refine Find.after_of_elsewhere fun hpre => ?_
  have htail : name ++ [quote, ':', quote] <+: x :: z := (List.cons_prefix_cons.mp hpre).2
  cases name with
  | nil => exact hx.ne_quote (List.cons_prefix_cons.mp htail).1.symm
  | cons d t =>
    refine hn.first d rfl ?_
    rw [(List.cons_prefix_cons.mp htail).1]
    exact hx

/-- A name followed by a quote is the whole of a string it begins in. -/
theorem prefix_escaped (hraw : Escaped raw) {u q : Text} (hu : ∀ c ∈ u, c ≠ quote ∧ c ≠ backslash)
    (h : u ++ quote :: q <+: raw ++ quote :: z) : u = raw ∧ q <+: z := by
  induction hraw generalizing u with
  | nil =>
    cases u with
    | nil => exact ⟨rfl, (List.cons_prefix_cons.mp h).2⟩
    | cons c u => exact absurd (List.cons_prefix_cons.mp h).1 (hu c List.mem_cons_self).1
  | @plain c t hquote hback hterm ht ih =>
    cases u with
    | nil => exact absurd (List.cons_prefix_cons.mp h).1.symm hquote
    | cons d u =>
      obtain ⟨rfl, htail⟩ := List.cons_prefix_cons.mp h
      obtain ⟨rfl, hq⟩ := ih (fun c hc => hu c (List.mem_cons_of_mem _ hc)) htail
      exact ⟨rfl, hq⟩
  | @escaped c t hterm ht ih =>
    cases u with
    | nil => exact absurd (List.cons_prefix_cons.mp h).1 (by decide)
    | cons d u => exact absurd (List.cons_prefix_cons.mp h).1 (hu d List.mem_cons_self).2

/-- No field begins with a quote that opens a value, nor with one in it. -/
theorem not_pattern_here (hn : Sought name) (hraw : Escaped raw) (hx : x ≠ ':') :
    ¬pattern name <+: quote :: (raw ++ quote :: x :: z) := by
  intro h
  have htail : name ++ quote :: [':', quote] <+: raw ++ quote :: x :: z :=
    (List.cons_prefix_cons.mp h).2
  obtain ⟨-, hq⟩ := prefix_escaped hraw hn.plain htail
  exact hx (List.cons_prefix_cons.mp hq).1.symm

theorem after_escaped (hn : Sought name) (hraw : Escaped raw) (hx : Mark x) (hc : x ≠ ':') :
    Find.after (pattern name) (raw ++ quote :: x :: z) = Find.after (pattern name) (x :: z) := by
  induction hraw with
  | nil => exact after_closing hn hx
  | plain hquote _ _ _ ih =>
    rw [List.cons_append, after_cons hquote]
    exact ih
  | @escaped c t _ ht ih =>
    rw [List.cons_append, List.cons_append, after_cons (by decide)]
    by_cases hquote : c = quote
    · rw [hquote, Find.after_of_elsewhere (not_pattern_here hn ht hc)]
      exact ih
    · rw [after_cons hquote]
      exact ih

/-- No field begins in a value. -/
theorem after_value (hn : Sought name) (v : JsonValue) (hx : Mark x) (hc : x ≠ ':') :
    Find.after (pattern name) (v.text ++ x :: z) = Find.after (pattern name) (x :: z) := by
  cases v with
  | string raw hraw =>
    rw [JsonValue.text, List.append_assoc, List.cons_append, List.singleton_append,
      Find.after_of_elsewhere (not_pattern_here hn hraw hc)]
    exact after_escaped hn hraw hx hc
  | bare raw hraw => exact after_append fun c hmem => (hraw c hmem).1

theorem escaped_of_plain {u : Text} (h : ∀ c ∈ u, c ≠ quote ∧ c ≠ backslash ∧ c ≠ terminator) :
    Escaped u := by
  induction u with
  | nil => exact .nil
  | cons c u ih =>
    obtain ⟨hquote, hback, hterm⟩ := h c List.mem_cons_self
    exact .plain hquote hback hterm (ih fun d hd => h d (List.mem_cons_of_mem c hd))

theorem takeWhile_ne_quote {v w : Text} (hv : quote ∉ v) :
    (v ++ quote :: w).takeWhile (· ≠ quote) = v := by
  rw [List.takeWhile_append_of_pos fun c hc => decide_eq_true (ne_of_mem_of_not_mem hc hv)]
  simp

/-- A text with a quote in it is what is ahead of the quote, and the rest. -/
theorem eq_takeWhile_append {u : Text} (h : quote ∈ u) :
    ∃ w, u = u.takeWhile (· ≠ quote) ++ quote :: w := by
  induction u with
  | nil => cases h
  | cons c u ih =>
    by_cases hc : c = quote
    · exact ⟨u, by simp [hc]⟩
    · obtain ⟨w, hw⟩ := ih (List.mem_of_ne_of_mem (Ne.symm hc) h)
      refine ⟨w, ?_⟩
      have hcons : (c :: u).takeWhile (· ≠ quote) = c :: u.takeWhile (· ≠ quote) :=
        List.takeWhile_cons_of_pos (decide_eq_true hc)
      rw [hcons, List.cons_append, ← hw]

/-- What is copied is the text up to the next quote, when it fits. -/
theorem copyString_eq_some {json v : Text} {k : ℕ} :
    copyString json name k = some v ↔
      quote ∉ v ∧ v.length < k ∧ ∃ w, string json name = some (v ++ quote :: w) := by
  rw [copyString]
  cases string json name with
  | none => simp
  | some u =>
    constructor
    · intro h
      have h : (if quote ∉ u then none else if k < (u.takeWhile (· ≠ quote)).length + 1 then none
        else some (u.takeWhile (· ≠ quote))) = some v := h
      split_ifs at h with hq hk
      obtain ⟨w, hw⟩ := eq_takeWhile_append hq
      obtain rfl := Option.some_inj.mp h
      refine ⟨fun hmem => ?_, by omega, w, by rw [← hw]⟩
      have hne := List.mem_takeWhile_imp hmem
      simp at hne
    · rintro ⟨hv, hk, w, hw⟩
      obtain rfl := Option.some_inj.mp hw
      have hq : quote ∈ v ++ quote :: w := by simp
      have hfit : ¬k < v.length + 1 := by omega
      simp only [takeWhile_ne_quote hv]
      rw [if_neg (not_not.mpr hq), if_neg hfit]

/-- A field is looked for by its pattern. -/
theorem string_of_sought (hn : Sought name) (json : Text) :
    string json name = Find.after (pattern name) json := by
  refine if_neg ?_
  have hlen := hn.short
  simp only [pattern, List.length_append, List.length_cons, List.length_nil]
  omega

end Json

namespace JsonMember

open Json

variable {m : JsonMember} {name raw z : Text} {x : Char}

theorem blank_of_mem {c : Char}
    (h : c ∈ m.before ∨ c ∈ m.beforeColon ∨ c ∈ m.afterColon ∨ c ∈ m.behind) : IsBlank c := by
  refine m.blanks c ?_
  simp only [List.mem_append]
  tauto

/-- The member is found by its name, and what follows begins with its value. -/
theorem after_front (hname : m.name = name) (hcompact : m.Compact) {h : Escaped raw}
    (hvalue : m.value = .string raw h) :
    Find.after (pattern name) (m.front ++ z) = some (raw ++ quote :: z) := by
  obtain ⟨hb, ha⟩ := hcompact
  have hfront : m.front ++ z = m.before ++ (pattern name ++ (raw ++ quote :: z)) := by
    simp only [front, hname, hb, ha, hvalue, JsonValue.text, pattern, List.append_assoc,
      List.cons_append, List.nil_append]
  rw [hfront, after_append fun c hc => (blank_of_mem (.inl hc)).ne_quote]
  change Find.after (pattern name) (quote :: _) = _
  rw [Find.after_of_here]
  · congr 1
    exact List.drop_left
  · exact List.prefix_append _ _

/-- Blanks and a character begin with a blank or with that character. -/
theorem exists_cons {b : Text} (hb : ∀ c ∈ b, IsBlank c) :
    ∃ y t, b ++ x :: z = y :: t ∧ (IsBlank y ∨ y = x) := by
  cases b with
  | nil => exact ⟨x, z, rfl, .inr rfl⟩
  | cons c b => exact ⟨c, b ++ x :: z, rfl, .inl (hb c List.mem_cons_self)⟩

/-- A field that begins with a name is a member written without blanks, with a string. -/
theorem string_of_here (hx : x ≠ quote)
    (h : [':', quote] <+: m.beforeColon ++ ':' :: (m.afterColon ++ (m.value.text ++
      (m.behind ++ x :: z)))) : m.Compact ∧ ∃ raw h, m.value = .string raw h := by
  cases hbefore : m.beforeColon with
  | cons c b =>
    -- a blank is no colon, and below it is no quote
    rw [hbefore] at h
    have hblank : IsBlank c := m.blank_of_mem (.inr (.inl (hbefore ▸ List.mem_cons_self)))
    exact absurd (List.cons_prefix_cons.mp h).1.symm hblank.ne_colon
  | nil =>
    rw [hbefore] at h
    have hquote := (List.cons_prefix_cons.mp h).2
    cases hafter : m.afterColon with
    | cons c b =>
      rw [hafter] at hquote
      have hblank : IsBlank c := m.blank_of_mem (.inr (.inr (.inl (hafter ▸ List.mem_cons_self))))
      exact absurd (List.cons_prefix_cons.mp hquote).1.symm hblank.ne_quote
    | nil =>
      rw [hafter] at hquote
      refine ⟨⟨hbefore, hafter⟩, ?_⟩
      cases hvalue : m.value with
      | string raw h => exact ⟨raw, h, rfl⟩
      | bare raw hraw =>
        rw [hvalue] at hquote
        cases raw with
        | cons c raw =>
          exact absurd (List.cons_prefix_cons.mp hquote).1.symm (hraw c List.mem_cons_self).1
        | nil =>
          -- no value at all, and what follows is no quote either
          obtain ⟨y, t, hyt, hy⟩ := exists_cons (x := x) (z := z) (b := m.behind)
            fun c hc => m.blank_of_mem (.inr (.inr (.inr hc)))
          have hfirst : [quote] <+: m.behind ++ x :: z := hquote
          rw [hyt] at hfirst
          have heq := (List.cons_prefix_cons.mp hfirst).1
          rcases hy with hy | hy
          · exact absurd heq.symm hy.ne_quote
          · exact absurd (hy.symm.trans heq.symm) hx

/-- The other members are passed over. -/
theorem after_text (hn : Sought name)
    (hother : m.name = name → m.Compact → ∀ raw h, m.value ≠ .string raw h)
    (hx : x = ',' ∨ x = '}') :
    Find.after (pattern name) (m.text ++ x :: z) = Find.after (pattern name) (x :: z) := by
  have hxq : x ≠ quote := by rcases hx with rfl | rfl <;> decide
  have hxc : x ≠ ':' := by rcases hx with rfl | rfl <;> decide
  have htext : m.text ++ x :: z = m.before ++ (quote :: (m.name ++ (quote :: (m.beforeColon ++
      ':' :: (m.afterColon ++ (m.value.text ++ (m.behind ++ x :: z))))))) := by
    simp only [text, front, List.append_assoc, List.cons_append]
  have hopen : ¬pattern name <+: quote :: (m.name ++ (quote :: (m.beforeColon ++
      ':' :: (m.afterColon ++ (m.value.text ++ (m.behind ++ x :: z)))))) := by
    intro hpre
    obtain ⟨hname, hq⟩ :=
      prefix_escaped (escaped_of_plain m.plain) hn.plain (List.cons_prefix_cons.mp hpre).2
    obtain ⟨hcompact, raw, h, hvalue⟩ := string_of_here hxq hq
    exact hother hname.symm hcompact raw h hvalue
  -- what can stand behind the closing quote of the name, and behind the value
  obtain ⟨y, t, hyt, hy⟩ := exists_cons (x := ':') (b := m.beforeColon)
    (z := m.afterColon ++ (m.value.text ++ (m.behind ++ x :: z)))
    fun c hc => m.blank_of_mem (.inr (.inl hc))
  obtain ⟨y', t', hyt', hy'⟩ := exists_cons (x := x) (z := z) (b := m.behind)
    fun c hc => m.blank_of_mem (.inr (.inr (.inr hc)))
  rw [htext, after_append fun c hc => (m.blank_of_mem (.inl hc)).ne_quote,
    Find.after_of_elsewhere hopen, after_append fun c hc => (m.plain c hc).1, hyt,
    after_closing hn (hy.imp_right .inl), ← hyt,
    after_append fun c hc => (m.blank_of_mem (.inr (.inl hc))).ne_quote, after_cons (by decide),
    after_append fun c hc => (m.blank_of_mem (.inr (.inr (.inl hc)))).ne_quote, hyt',
    after_value hn, ← hyt',
    after_append fun c hc => (m.blank_of_mem (.inr (.inr (.inr hc)))).ne_quote]
  · rcases hy' with hb | rfl
    · exact .inl hb
    · exact .inr (.inr hx)
  · rcases hy' with hb | rfl
    · exact hb.ne_colon
    · exact hxc

end JsonMember

namespace JsonObject

open Json

variable {name raw trail v : Text} {ms : List JsonMember} {o : JsonObject}

/-- Among the members is one of the name that has the string, and no blanks around its colon. -/
def Shows (name raw : Text) (ms : List JsonMember) : Prop :=
  ∃ m ∈ ms, m.name = name ∧ m.Compact ∧ ∃ h, m.value = .string raw h

theorem exists_rest (trail : Text) (ms : List JsonMember) :
    ∃ x z, rest trail ms = x :: z ∧ (x = ',' ∨ x = '}') := by
  cases ms with
  | nil => exact ⟨'}', trail, rfl, .inr rfl⟩
  | cons m ms => exact ⟨',', m.text ++ rest trail ms, rfl, .inl rfl⟩

/-- A member that does not show the name is passed over. -/
theorem after_rest_cons (hn : Sought name) {m : JsonMember}
    (hother : m.name = name → m.Compact → ∀ raw h, m.value ≠ .string raw h) :
    Find.after (pattern name) (rest trail (m :: ms)) =
      Find.after (pattern name) (rest trail ms) := by
  obtain ⟨x, z, hrest, hx⟩ := exists_rest trail ms
  rw [rest, after_cons (by decide), hrest]
  exact JsonMember.after_text hn hother hx

theorem after_rest_of_not_shows (hn : Sought name) (htrail : ∀ c ∈ trail, IsBlank c)
    (h : ∀ raw, ¬Shows name raw ms) : Find.after (pattern name) (rest trail ms) = none := by
  induction ms with
  | nil =>
    rw [rest, after_cons (by decide), ← List.append_nil trail,
      after_append fun c hc => (htrail c hc).ne_quote]
    rfl
  | cons m ms ih =>
    rw [after_rest_cons hn]
    · refine ih fun raw hs => h raw ?_
      obtain ⟨m', hm', hshow⟩ := hs
      exact ⟨m', List.mem_cons_of_mem m hm', hshow⟩
    · intro hname hcompact raw hraw hvalue
      exact h raw ⟨m, List.mem_cons_self, hname, hcompact, hraw, hvalue⟩

/-- The member that shows the name is found, as far in as it is. -/
theorem after_rest_of_shows (trail : Text) (hn : Sought name)
    (hnodup : (ms.map JsonMember.name).Nodup)
    (h : Shows name raw ms) :
    ∃ r, Find.after (pattern name) (rest trail ms) = some (raw ++ quote :: r) ∧
      (rest trail ms).length = 1 + throughMembers name ms + r.length := by
  induction ms with
  | nil =>
    obtain ⟨m, hm, -⟩ := h
    cases hm
  | cons m ms ih =>
    obtain ⟨m', hm', hname, hcompact, hraw, hvalue⟩ := h
    obtain ⟨hfresh, hnodup⟩ := List.nodup_cons.mp hnodup
    by_cases hm : m.name = name
    · -- no other member has the name
      have heq : m' = m := by
        rcases List.mem_cons.mp hm' with heq | hmem
        · exact heq
        · refine absurd ?_ hfresh
          rw [hm, ← hname]
          exact List.mem_map_of_mem hmem
      rw [heq] at hcompact hvalue
      have hrest : rest trail (m :: ms) = ',' :: (m.front ++ (m.behind ++ rest trail ms)) := by
        rw [rest, JsonMember.text, List.append_assoc]
      refine ⟨m.behind ++ rest trail ms, ?_, ?_⟩
      · rw [hrest, after_cons (by decide), JsonMember.after_front hm hcompact hvalue]
      · rw [hrest, throughMembers, if_pos hm, List.length_cons, List.length_append]
        omega
    · have hmem : m' ∈ ms := by
        rcases List.mem_cons.mp hm' with heq | hmem
        · exact absurd (heq ▸ hname) hm
        · exact hmem
      obtain ⟨r, hr, hlen⟩ := ih hnodup ⟨m', hmem, hname, hcompact, hraw, hvalue⟩
      refine ⟨r, ?_, ?_⟩
      · rw [after_rest_cons hn fun hname' => absurd hname' hm, hr]
      · rw [rest, throughMembers, if_neg hm, List.length_cons, List.length_append, hlen]
        omega

/-- The text is searched from its first member on. -/
theorem after_text (o : JsonObject) (name : Text) :
    Find.after (pattern name) o.text = Find.after (pattern name) (rest o.trail o.members) := by
  rw [text, after_append fun c hc => (o.blanks c (List.mem_append_left _ hc)).ne_quote,
    after_cons (by decide), members, rest, after_cons (by decide)]

theorem length_text (o : JsonObject) :
    o.text.length = o.lead.length + (rest o.trail o.members).length := by
  rw [text, members, rest, List.length_append, List.length_cons, List.length_cons]

/-- A field that is shown, in a text that has been cut. -/
theorem after_text_take (hn : Sought name) (h : Shows name raw o.members) (n : ℕ) :
    ∃ r, Find.after (pattern name) (o.text.take n) =
      if o.through name ≤ n + (raw.length + 1) then
        some ((raw ++ quote :: r).take (n + (raw.length + 1) - o.through name))
      else none := by
  have hnodup : (o.members.map JsonMember.name).Nodup := o.nodup
  obtain ⟨r, hr, hlen⟩ := after_rest_of_shows o.trail hn hnodup h
  rw [← after_text] at hr
  have htext : o.text.length = o.through name + r.length := by
    rw [length_text, hlen, through]
    omega
  refine ⟨r, ?_⟩
  rw [Find.after_take (pattern_ne_nil name) n hr, htext, List.length_append, List.length_cons]
  have hcond : o.through name + r.length ≤ n + (raw.length + (r.length + 1)) ↔
      o.through name ≤ n + (raw.length + 1) := by omega
  have hcut : n + (raw.length + (r.length + 1)) - (o.through name + r.length) =
      n + (raw.length + 1) - o.through name := by omega
  simp only [hcond, hcut]

/-- **A field of a text that has been cut.** It is copied when a member shows it and its closing
quote is ahead of the cut. -/
theorem copyString_take (hn : Sought name) (hv : ∀ c ∈ v, c ≠ quote ∧ c ≠ backslash) {k : ℕ}
    (hk : v.length < k) (n : ℕ) :
    copyString (o.text.take n) name k = some v ↔
      Shows name v o.members ∧ o.through name ≤ n := by
  rw [copyString_eq_some, string_of_sought hn]
  have hquote : quote ∉ v := fun hmem => (hv quote hmem).1 rfl
  constructor
  · rintro ⟨-, -, w, hw⟩
    by_cases hshow : ∃ raw, Shows name raw o.members
    · obtain ⟨raw, hraw⟩ := hshow
      obtain ⟨r, hr⟩ := after_text_take hn hraw n
      rw [hw] at hr
      split_ifs at hr with hfits
      have hcut := Option.some_inj.mp hr
      -- both end with the first quote, so the copy is the field's own string
      have hpre : v ++ quote :: w <+: raw ++ quote :: r := by
        rw [hcut]
        exact List.take_prefix _ _
      obtain ⟨m, -, -, -, hescaped, -⟩ := id hraw
      obtain ⟨rfl, -⟩ := prefix_escaped hescaped hv hpre
      refine ⟨hraw, ?_⟩
      have hlen := congrArg List.length hcut
      rw [List.length_take, List.length_append, List.length_append, List.length_cons,
        List.length_cons] at hlen
      omega
    · have hnone : Find.after (pattern name) o.text = none := by
        rw [after_text]
        exact after_rest_of_not_shows hn (fun c hc => o.blanks c (List.mem_append_right _ hc))
          (not_exists.mp hshow)
      rw [Find.after_take_of_none (pattern_ne_nil name) n hnone] at hw
      cases hw
  · rintro ⟨hshow, hle⟩
    obtain ⟨r, hr⟩ := after_text_take hn hshow n
    refine ⟨hquote, hk, r.take (n - o.through name), ?_⟩
    have hcut : n + (v.length + 1) - o.through name = v.length + (n - o.through name + 1) := by
      omega
    rw [hr, if_pos (by omega), hcut, List.take_length_add_append, List.take_succ_cons]

/-! ### An object has no terminator -/

theorem ne_terminator_of_blank {c : Char} (h : IsBlank c) : c ≠ terminator := by
  rcases h with rfl | rfl | rfl | rfl <;> decide

theorem ne_terminator_of_escaped {c : Char} (h : Escaped raw) (hc : c ∈ raw) : c ≠ terminator := by
  induction h with
  | nil => cases hc
  | plain _ _ hterm _ ih =>
    rcases List.mem_cons.mp hc with rfl | hmem
    · exact hterm
    · exact ih hmem
  | escaped hterm _ ih =>
    rcases List.mem_cons.mp hc with rfl | hmem
    · decide
    rcases List.mem_cons.mp hmem with rfl | hmem
    · exact hterm
    · exact ih hmem

theorem ne_terminator_of_member {m : JsonMember} {c : Char} (hc : c ∈ m.text) :
    c ≠ terminator := by
  have hvalue : c ∈ m.value.text → c ≠ terminator := by
    cases m.value with
    | string raw h =>
      intro hmem
      rcases List.mem_append.mp hmem with hmem | hmem
      · rcases List.mem_cons.mp hmem with rfl | hmem
        · decide
        · exact ne_terminator_of_escaped h hmem
      · rw [List.mem_singleton.mp hmem]
        decide
    | bare raw h => exact fun hmem => (h c hmem).2
  have hblank : c ∈ m.before ∨ c ∈ m.beforeColon ∨ c ∈ m.afterColon ∨ c ∈ m.behind →
      c ≠ terminator := fun h => ne_terminator_of_blank (m.blank_of_mem h)
  simp only [JsonMember.text, JsonMember.front, List.mem_append, List.mem_cons] at hc
  rcases hc with (h | (rfl | h) | (rfl | h) | (rfl | h) | h) | h
  · exact hblank (.inl h)
  · decide
  · exact (m.plain c h).2.2
  · decide
  · exact hblank (.inr (.inl h))
  · decide
  · exact hblank (.inr (.inr (.inl h)))
  · exact hvalue h
  · exact hblank (.inr (.inr (.inr h)))

theorem ne_terminator_of_rest {c : Char} (htrail : ∀ c ∈ trail, IsBlank c)
    (hc : c ∈ rest trail ms) : c ≠ terminator := by
  induction ms with
  | nil =>
    rcases List.mem_cons.mp hc with rfl | hmem
    · decide
    · exact ne_terminator_of_blank (htrail c hmem)
  | cons m ms ih =>
    rcases List.mem_cons.mp hc with rfl | hmem
    · decide
    rcases List.mem_append.mp hmem with hmem | hmem
    · exact ne_terminator_of_member hmem
    · exact ih hmem

theorem ne_terminator (o : JsonObject) {c : Char} (hc : c ∈ o.text) : c ≠ terminator := by
  rcases List.mem_append.mp hc with hmem | hmem
  · exact ne_terminator_of_blank (o.blanks c (List.mem_append_left _ hmem))
  rcases List.mem_cons.mp hmem with rfl | hmem
  · decide
  rcases List.mem_append.mp hmem with hmem | hmem
  · exact ne_terminator_of_member hmem
  · exact ne_terminator_of_rest (fun c hc => o.blanks c (List.mem_append_right _ hc)) hmem

end JsonObject

end Fmma
