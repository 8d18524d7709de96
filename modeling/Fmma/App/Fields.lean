import Fmma.App.Json

/-!
# Field extraction on compact objects

`fmma_json_copy_string` with the buffer it fills, and `fmma_json_type_is`, on a flat object written
without blanks: the search for `"name":"` finds a field just when the object has one of the name
that is a string.
-/

namespace Fmma

open Text

/-- A letter, a digit or an underscore. -/
def IsWord (c : Char) : Prop := c.isAlphanum = true ∨ c = '_'

instance : DecidablePred IsWord := fun _ => instDecidableOr

/-- The value of a field: a string without quotes and backslashes, or a text without quotes (a
number, `true`, `false` or `null`). -/
inductive JsonFieldValue
  | string (raw : Text) (plain : ∀ c ∈ raw, c ≠ quote ∧ c ≠ backslash ∧ c ≠ terminator)
  | literal (raw : Text) (plain : ∀ c ∈ raw, c ≠ quote ∧ c ≠ terminator)

namespace JsonFieldValue

/-- The value as it is written. -/
def text : JsonFieldValue → Text
  | string raw _ => quote :: raw ++ [quote]
  | literal raw _ => raw

end JsonFieldValue

/-- A field of an object. -/
structure JsonField where
  name : Text
  value : JsonFieldValue
  word : ∀ c ∈ name, IsWord c

/-- `"name":value`. -/
def JsonField.text (f : JsonField) : Text := quote :: f.name ++ (quote :: ':' :: f.value.text)

/-- A flat object without blanks, its fields of different names. -/
structure CompactObject where
  fields : List JsonField
  nodup : (fields.map JsonField.name).Nodup

namespace CompactObject

/-- The object as it is written. -/
def text (o : CompactObject) : Text :=
  '{' :: (List.intercalate [','] (o.fields.map JsonField.text) ++ ['}'])

/-- The object has a field of the name that is the string. -/
def HasString (o : CompactObject) (name raw : Text) : Prop :=
  ∃ f ∈ o.fields, f.name = name ∧ ∃ plain, f.value = .string raw plain

end CompactObject

namespace Json

/-- `fmma_json_copy_string` and the buffer at `out`, of `outlen` bytes at least: what it returns,
and the buffer after it. -/
def copyInto (json name : Text) (out : List Char) (outlen : ℕ) : Int × List Char :=
  if outlen = 0 then (-1, out)
  else
    let out := out.set 0 terminator
    match string json name with
    | none => (-1, out)
    | some v =>
      if quote ∉ v then (-1, out)
      else
        let value := v.takeWhile (· ≠ quote)
        if outlen < value.length + 1 then (-1, out)
        else (0, value ++ terminator :: out.drop (value.length + 1))

/-- `fmma_json_type_is`. -/
def typeIs (json want : Text) : Bool :=
  match string json ['t', 'y', 'p', 'e'] with
  | none => false
  | some v => decide (want <+: v) && decide (v[want.length]? = some quote)

/-- The buffer holds a C string. -/
def Holds (buf : List Char) (v : Text) : Prop := v ++ [terminator] <+: buf

end Json

/-! ### The buffer -/

namespace Json

variable {out : List Char} {outlen : ℕ}

/-- The buffer after the copy, by what is copied. -/
theorem copyInto_eq (json name : Text) (out : List Char) (hpos : outlen ≠ 0) :
    copyInto json name out outlen =
      match copyString json name outlen with
      | none => (-1, out.set 0 terminator)
      | some v => (0, v ++ terminator :: (out.set 0 terminator).drop (v.length + 1)) := by
  rw [copyInto, if_neg hpos, copyString]
  cases string json name with
  | none => rfl
  | some v =>
    dsimp only
    split_ifs <;> rfl

/-- Nothing is copied: the buffer is terminated at once. -/
theorem holds_nil (hout : outlen ≤ out.length) (hpos : outlen ≠ 0) :
    Holds (out.set 0 terminator) [] := by
  cases out with
  | nil => exact absurd (Nat.le_zero.mp hout) hpos
  | cons c out => exact List.cons_prefix_cons.mpr ⟨rfl, List.nil_prefix⟩

/-- Behind a text and its terminator the buffer is as it was. -/
theorem drop_copied {v buf : List Char} (hv : v.length < outlen) :
    (v ++ terminator :: buf.drop (v.length + 1)).drop outlen = buf.drop outlen := by
  have hfront : v ++ terminator :: buf.drop (v.length + 1) =
      v ++ [terminator] ++ buf.drop (v.length + 1) := List.append_cons v terminator _
  have hlen : (v ++ [terminator]).length = v.length + 1 := List.length_append
  rw [hfront, List.drop_append, List.drop_eq_nil_of_le (by omega), List.nil_append,
    List.drop_drop, hlen, Nat.add_sub_cancel' hv]

/-- **The frame.** Nothing is written beyond the buffer. -/
theorem copyInto_frame (json name : Text) (hout : outlen ≤ out.length) :
    (copyInto json name out outlen).2.length = out.length ∧
      (copyInto json name out outlen).2.drop outlen = out.drop outlen := by
  by_cases hzero : outlen = 0
  · rw [copyInto, if_pos hzero]
    exact ⟨rfl, rfl⟩
  · have hset : (out.set 0 terminator).drop outlen = out.drop outlen :=
      List.drop_set_of_lt (Nat.pos_of_ne_zero hzero)
    rw [copyInto_eq _ _ _ hzero]
    cases hcopy : copyString json name outlen with
    | none => exact ⟨List.length_set, hset⟩
    | some v =>
      obtain ⟨-, hfits, -⟩ := copyString_eq_some.mp hcopy
      refine ⟨?_, (drop_copied hfits).trans hset⟩
      simp only [List.length_append, List.length_cons, List.length_drop, List.length_set]
      omega

end Json

/-! ### The words of the names -/

theorem IsWord.ne {c d : Char} (h : IsWord c) (hd : ¬IsWord d) : c ≠ d := by
  rintro rfl
  exact hd h

theorem IsWord.plain {c : Char} (h : IsWord c) : c ≠ quote ∧ c ≠ backslash ∧ c ≠ terminator :=
  ⟨h.ne (by decide), h.ne (by decide), h.ne (by decide)⟩

theorem IsWord.not_mark {c : Char} (h : IsWord c) : ¬Mark c := by
  rintro ((rfl | rfl | rfl | rfl) | rfl | rfl | rfl)
  all_goals exact absurd h (by decide)

/-- A name that can be looked for. -/
theorem sought_of_word {name : Text} (h : ∀ c ∈ name, IsWord c) (hlen : name.length ≤ 59) :
    Sought name where
  plain c hc := ⟨(h c hc).plain.1, (h c hc).plain.2.1⟩
  first d hd := (h d (List.mem_of_mem_head? hd)).not_mark
  short := Nat.lt_succ_of_le hlen

/-! ### A compact object as a flat object -/

/-- The value as one of a flat object. -/
def JsonFieldValue.toJson : JsonFieldValue → JsonValue
  | .string raw plain => .string raw (Json.escaped_of_plain plain)
  | .literal raw plain => .bare raw plain

/-- The field as a member without blanks. -/
def JsonField.member (f : JsonField) : JsonMember where
  before := []
  name := f.name
  beforeColon := []
  afterColon := []
  value := f.value.toJson
  behind := []
  plain c hc := (f.word c hc).plain
  blanks := no_blanks

theorem JsonField.text_member (f : JsonField) : f.member.text = f.text := by
  have hvalue : f.value.toJson.text = f.value.text := by
    cases f.value <;> rfl
  simp only [JsonMember.text, JsonMember.front, JsonField.member, JsonField.text, hvalue,
    List.nil_append, List.append_nil]
  rfl

namespace CompactObject

open Json

variable {o : CompactObject} {name raw want : Text}

def members (o : CompactObject) : List JsonMember := o.fields.map JsonField.member

theorem nodup_members (o : CompactObject) : (o.members.map JsonMember.name).Nodup := by
  rw [members, List.map_map]
  exact o.nodup

theorem rest_eq (f : JsonField) (fs : List JsonField) :
    List.intercalate [','] ((f :: fs).map JsonField.text) ++ ['}'] =
      f.text ++ JsonObject.rest [] (fs.map JsonField.member) := by
  induction fs generalizing f with
  | nil => simp [JsonObject.rest]
  | cons g fs ih =>
    have hsplit : List.intercalate [','] ((f :: g :: fs).map JsonField.text) =
        f.text ++ (',' :: List.intercalate [','] ((g :: fs).map JsonField.text)) := by
      simp [List.intercalate]
    rw [hsplit, List.append_assoc, List.cons_append, ih, List.map_cons, JsonObject.rest,
      g.text_member]

/-- The text is searched from its first field on. -/
theorem after_text (o : CompactObject) (name : Text) :
    Find.after (pattern name) o.text =
      Find.after (pattern name) (JsonObject.rest [] o.members) := by
  rw [text, members, after_cons (by decide)]
  cases o.fields with
  | nil => rfl
  | cons f fs =>
    rw [rest_eq, List.map_cons, JsonObject.rest, after_cons (by decide), f.text_member]

theorem shows_iff : JsonObject.Shows name raw o.members ↔ o.HasString name raw := by
  constructor
  · rintro ⟨m, hm, hname, -, hescaped, hvalue⟩
    obtain ⟨f, hf, rfl⟩ := List.mem_map.mp hm
    refine ⟨f, hf, hname, ?_⟩
    have hvalue : f.value.toJson = .string raw hescaped := hvalue
    cases hv : f.value with
    | string raw' plain =>
      rw [hv] at hvalue
      obtain rfl := (JsonValue.string.injEq ..).mp hvalue
      exact ⟨plain, rfl⟩
    | literal raw' plain =>
      rw [hv] at hvalue
      cases hvalue
  · rintro ⟨f, hf, hname, plain, hvalue⟩
    refine ⟨f.member, List.mem_map_of_mem hf, hname, ⟨rfl, rfl⟩, escaped_of_plain plain, ?_⟩
    change f.value.toJson = _
    rw [hvalue]
    rfl

/-- The string of a field has no quote. -/
theorem HasString.quote_notMem (h : o.HasString name raw) : quote ∉ raw := by
  obtain ⟨f, -, -, plain, -⟩ := h
  exact fun hmem => (plain quote hmem).1 rfl

/-- **A field is found** where the object has it: the text goes on with its string. -/
theorem string_of_hasString (hn : Sought name) (h : o.HasString name raw) :
    ∃ r, string o.text name = some (raw ++ quote :: r) := by
  obtain ⟨r, hr, -⟩ := JsonObject.after_rest_of_shows [] hn o.nodup_members (shows_iff.mpr h)
  exact ⟨r, by rw [string_of_sought hn, after_text, hr]⟩

/-- **Nothing is found** where it does not. -/
theorem string_eq_none (hn : Sought name) (h : ∀ raw, ¬o.HasString name raw) :
    string o.text name = none := by
  rw [string_of_sought hn, after_text]
  refine JsonObject.after_rest_of_not_shows hn ?_ fun raw hshow => h raw (shows_iff.mp hshow)
  rintro c ⟨⟩

/-! ### The copy -/

/-- What is copied is the string of the field, when it fits. -/
theorem copyString_eq_some_iff (hn : Sought name) {outlen : ℕ} :
    copyString o.text name outlen = some raw ↔ o.HasString name raw ∧ raw.length < outlen := by
  rw [copyString_eq_some]
  constructor
  · rintro ⟨hquote, hlen, w, hw⟩
    by_cases hfield : ∃ raw', o.HasString name raw'
    · obtain ⟨raw', hraw'⟩ := hfield
      obtain ⟨r, hr⟩ := string_of_hasString hn hraw'
      rw [hw, Option.some_inj] at hr
      have htake := congrArg (List.takeWhile (· ≠ quote)) hr
      rw [takeWhile_ne_quote hquote, takeWhile_ne_quote hraw'.quote_notMem] at htake
      rw [htake]
      exact ⟨hraw', htake ▸ hlen⟩
    · rw [string_eq_none hn (not_exists.mp hfield)] at hw
      cases hw
  · rintro ⟨hfield, hlen⟩
    exact ⟨hfield.quote_notMem, hlen, string_of_hasString hn hfield⟩

/-! ### The type -/

theorem typeIs_iff (hwant : ∀ c ∈ want, IsWord c) :
    typeIs o.text want = true ↔ o.HasString ['t', 'y', 'p', 'e'] want := by
  have hn : Sought ['t', 'y', 'p', 'e'] :=
    sought_of_word (Text.forall_of_all (by decide)) (by decide)
  rw [typeIs]
  constructor
  · intro h
    by_cases hfield : ∃ raw, o.HasString ['t', 'y', 'p', 'e'] raw
    · obtain ⟨raw, hraw⟩ := hfield
      obtain ⟨r, hr⟩ := string_of_hasString hn hraw
      rw [hr, Bool.and_eq_true, decide_eq_true_eq, decide_eq_true_eq] at h
      obtain ⟨⟨w, hw⟩, hnext⟩ := h
      -- the character behind the prefix is a quote, so the prefix is the string
      rw [← hw, List.getElem?_append_right le_rfl, Nat.sub_self] at hnext
      obtain ⟨w, rfl⟩ : ∃ w', w = quote :: w' := by
        cases w with
        | nil => cases hnext
        | cons c w => exact ⟨w, by rw [Option.some_inj.mp hnext]⟩
      have htake := congrArg (List.takeWhile (· ≠ quote)) hw
      have hquote : quote ∉ want := fun hmem => (hwant quote hmem).plain.1 rfl
      rw [takeWhile_ne_quote hquote, takeWhile_ne_quote hraw.quote_notMem] at htake
      rwa [htake]
    · rw [string_eq_none hn (not_exists.mp hfield)] at h
      cases h
  · intro h
    obtain ⟨r, hr⟩ := string_of_hasString hn h
    rw [hr, Bool.and_eq_true, decide_eq_true_eq, decide_eq_true_eq]
    refine ⟨List.prefix_append _ _, ?_⟩
    rw [List.getElem?_append_right le_rfl, Nat.sub_self]
    rfl

end CompactObject

open Json CompactObject

/-- **Field extraction is exact on flat objects.** A string that fits is copied as it is; in any
other case the copy fails and leaves an empty string; nothing is written beyond the buffer; and the
type test is true just of the field `type`. -/
theorem field_extraction (o : CompactObject) (name : Text) (hname : ∀ c ∈ name, IsWord c)
    (hlen : name.length ≤ 59) (out : List Char) (outlen : ℕ) (hout : outlen ≤ out.length) :
    (∀ raw, o.HasString name raw → raw.length < outlen →
      (copyInto o.text name out outlen).1 = 0 ∧ Holds (copyInto o.text name out outlen).2 raw) ∧
    ((¬∃ raw, o.HasString name raw ∧ raw.length < outlen) →
      (copyInto o.text name out outlen).1 = -1 ∧
        (outlen ≠ 0 → Holds (copyInto o.text name out outlen).2 [])) ∧
    ((copyInto o.text name out outlen).2.length = out.length ∧
      (copyInto o.text name out outlen).2.drop outlen = out.drop outlen) ∧
    ∀ want, (∀ c ∈ want, IsWord c) →
      (typeIs o.text want = true ↔ o.HasString ['t', 'y', 'p', 'e'] want) := by
  have hn := sought_of_word hname hlen
  refine ⟨fun raw hfield hfits => ?_, fun hnone => ?_, copyInto_frame o.text name hout,
    fun want hwant => typeIs_iff hwant⟩
  · have hcopy := (copyString_eq_some_iff hn).mpr ⟨hfield, hfits⟩
    rw [copyInto_eq _ _ _ (Nat.ne_zero_of_lt hfits), hcopy]
    refine ⟨rfl, _, List.append_assoc _ _ _⟩
  · by_cases hzero : outlen = 0
    · rw [copyInto, if_pos hzero]
      exact ⟨rfl, fun hc => absurd hzero hc⟩
    · have hcopy : copyString o.text name outlen = none := by
        rw [Option.eq_none_iff_forall_ne_some]
        exact fun raw hraw => hnone ⟨raw, (copyString_eq_some_iff hn).mp hraw⟩
      rw [copyInto_eq _ _ _ hzero, hcopy]
      exact ⟨rfl, fun _ => holds_nil hout hzero⟩

/-! ### A ticker -/

namespace Ticker

def typeName : Text := ['t', 'y', 'p', 'e']

def sequence : Text := ['s', 'e', 'q', 'u', 'e', 'n', 'c', 'e']

def ticker : Text := ['t', 'i', 'c', 'k', 'e', 'r']

/-- `{"sequence":123,"type":"ticker"}`. -/
def object : CompactObject where
  fields := [⟨sequence, .literal ['1', '2', '3'] (Text.forall_of_all (by decide)),
      Text.forall_of_all (by decide)⟩,
    ⟨typeName, .string ticker (Text.forall_of_all (by decide)), Text.forall_of_all (by decide)⟩]
  nodup := (by decide : [sequence, typeName].Nodup)

/-- A buffer of eight bytes. -/
def buffer : List Char := List.replicate 8 'x'

end Ticker

open Ticker

/-- The type of the ticker is copied. -/
theorem field_extraction_ticker :
    (copyInto object.text typeName buffer 8).1 = 0 ∧
      Holds (copyInto object.text typeName buffer 8).2 ticker :=
  (field_extraction object typeName (Text.forall_of_all (by decide)) (by decide) buffer 8
    (by decide)).1 ticker ⟨_, List.mem_cons_of_mem _ List.mem_cons_self, rfl, _, rfl⟩ (by decide)

end Fmma
