import Fmma.App.Exec

/-!
# Executed quantity

Which responses of the broker that end an order are reported as they should be: a fill of one lot
when a quantity was executed, none otherwise.
-/

namespace Fmma

instance : DecidablePred IsBlank := fun c =>
  inferInstanceAs (Decidable (c = ' ' ∨ c = '\t' ∨ c = '\n' ∨ c = '\r'))

namespace JsonObject

variable (o : JsonObject)

/-! ### What an order object says -/

/-- The status of the order. -/
def HasStatus (status : Text) : Prop :=
  ∃ m ∈ o.members, m.name = Text.status ∧ ∃ h, m.value = .string status h

/-- The executed quantity, as a decimal: nothing where the member is missing, empty or `null`. -/
def quantity : Option Text :=
  match (o.members.find? (·.name = Text.filledQty)).map JsonMember.value with
  | none => none
  | some (.string raw _) => if raw = [] then none else some raw
  | some (.bare raw _) => if raw = ['n', 'u', 'l', 'l'] then none else some raw

/-- A decimal is not zero: there is another digit ahead of its exponent. -/
def NonZero (decimal : Text) : Prop :=
  ∃ c ∈ decimal.takeWhile fun c => c ≠ 'e' && c ≠ 'E', '1' ≤ c ∧ c ≤ '9'

/-- Something was executed. Without a quantity, that is what the status `filled` says. -/
def Executed (status : Text) : Prop :=
  match o.quantity with
  | none => status = Text.filled
  | some decimal => NonZero decimal

/-- `"name":"raw"` stands in the first 1023 bytes, without blanks around its colon. -/
def Seen (name raw : Text) : Prop := Shows name raw o.members ∧ o.through name ≤ 1023

end JsonObject

namespace Exec

open Json JsonObject

/-- The two callbacks. -/
inductive Callback
  | order
  | query

/-- An event on a connection with one of them. -/
def deliver (e : Exec) (slot : Slot) : Callback → ConnEvent → Exec
  | .order => e.orderCb slot
  | .query => e.queryCb slot

/-- The order of the slot is over, and its execution has been reported. -/
structure Reports (e : Exec) (slot : Slot) (executed : Prop) (e' : Exec) : Prop where
  inactive : (e'.pending slot).active = false
  reported : executed → ∃ price, e'.fills = (fillOf (e.pending slot).side, 1, price) :: e.fills
  silent : ¬executed → e'.fills = e.fills

/-- The callback reports a fill of what it has seen. -/
def SeesFill (o : JsonObject) (status : Text) : Callback → Prop
  | .order => status = Text.filled
  | .query => status = Text.filled ∧ ¬o.Seen Text.filledQty ['0']

/-! ### What is seen -/

variable {o : JsonObject} {status : Text}

theorem searchable_status : Searchable Text.status where
  plain := Text.forall_of_all (by decide)
  first := ⟨'s', ['t', 'a', 't', 'u', 's'], rfl, by unfold Mark; decide⟩
  short := by decide

theorem searchable_filledQty : Searchable Text.filledQty where
  plain := Text.forall_of_all (by decide)
  first := ⟨'f', ['i', 'l', 'l', 'e', 'd', '_', 'q', 't', 'y'], rfl, by unfold Mark; decide⟩
  short := by decide

/-- An object has no terminator, so the callbacks see its first 1023 bytes. -/
theorem bodyText_text (o : JsonObject) : bodyText o.text = o.text.take 1023 := by
  refine List.takeWhile_eq_self_iff.mpr fun c hc => ?_
  exact decide_eq_true (o.ne_terminator (List.mem_of_mem_take hc))

/-- A terminal status is short, and has no character that JSON escapes. -/
theorem plain_of_terminal (h : statusIsTerminal status = true) :
    (∀ c ∈ status, c ≠ Text.quote ∧ c ≠ Text.backslash) ∧ status.length < 32 := by
  simp only [statusIsTerminal, statusIsFilled, Bool.or_eq_true, decide_eq_true_eq] at h
  rcases h with (((rfl | rfl) | rfl) | rfl) | rfl <;>
    exact ⟨Text.forall_of_all (by decide), by decide⟩

theorem seen_filledQty_iff :
    copyString (bodyText o.text) Text.filledQty 32 = some ['0'] ↔ o.Seen Text.filledQty ['0'] := by
  rw [bodyText_text]
  have hplain : ∀ c ∈ ['0'], c ≠ Text.quote ∧ c ≠ Text.backslash :=
    Text.forall_of_all (by decide)
  exact copyString_take searchable_filledQty.sought hplain (by decide) 1023

/-- The status is seen, or what is seen is not terminal. -/
theorem statusText_cases (hstatus : o.HasStatus status) (hterm : statusIsTerminal status = true) :
    o.Seen Text.status status ∧ statusText (bodyText o.text) = status ∨
      ¬o.Seen Text.status status ∧ statusIsTerminal (statusText (bodyText o.text)) = false := by
  have hseen : ∀ st, statusIsTerminal st = true →
      (copyString (bodyText o.text) Text.status 32 = some st ↔ o.Seen Text.status st) := by
    intro st hst
    obtain ⟨hplain, hlen⟩ := plain_of_terminal hst
    rw [bodyText_text]
    exact copyString_take searchable_status.sought hplain hlen 1023
  by_cases hs : o.Seen Text.status status
  · exact .inl ⟨hs, by rw [statusText, (hseen status hterm).mpr hs, Option.getD_some]⟩
  · refine .inr ⟨hs, Bool.eq_false_iff.mpr fun hc => hs ?_⟩
    cases hcopy : copyString (bodyText o.text) Text.status 32 with
    | none =>
      rw [statusText, hcopy] at hc
      exact absurd hc (by decide)
    | some st =>
      -- a terminal status would be a second member of the name
      rw [statusText, hcopy, Option.getD_some] at hc
      have hst := (hseen st hc).mp hcopy
      obtain ⟨m, hm, hname, -, h, hvalue⟩ := hst.1
      obtain ⟨m', hm', hname', h', hvalue'⟩ := hstatus
      have hmm : m = m' :=
        List.inj_on_of_nodup_map o.nodup hm hm' (hname.trans hname'.symm)
      rw [← hmm, hvalue] at hvalue'
      obtain rfl := (JsonValue.string.injEq ..).mp hvalue'
      exact hst

/-! ### What is reported -/

variable {e e' : Exec} {slot : Slot}

theorem modify_pending (e : Exec) (slot : Slot) (f : Pending → Pending) :
    (e.modify slot f).pending slot = f (e.pending slot) := Function.update_self ..

/-- An order that is over is reported as it should be when a fill is reported just if something was
executed. -/
theorem reports_iff {sees executed : Prop} [Decidable sees] {price : Int}
    (hinactive : (e'.pending slot).active = false)
    (hfills : e'.fills =
      if sees then (fillOf (e.pending slot).side, 1, price) :: e.fills else e.fills) :
    Reports e slot executed e' ↔ (sees ↔ executed) := by
  constructor
  · intro h
    constructor
    · intro hsees
      by_contra hnot
      have hlen := congrArg List.length (h.silent hnot)
      rw [hfills, if_pos hsees, List.length_cons] at hlen
      omega
    · intro hexec
      by_contra hnot
      obtain ⟨price, hprice⟩ := h.reported hexec
      have hlen := congrArg List.length hprice
      rw [hfills, if_neg hnot, List.length_cons] at hlen
      omega
  · intro h
    refine ⟨hinactive, fun hexec => ⟨price, ?_⟩, fun hnot => ?_⟩
    · rw [hfills, if_pos (h.mpr hexec)]
    · rw [hfills, if_neg fun hsees => hnot (h.mp hsees)]

/-- The end of an order that is still followed. -/
theorem settle_spec (hactive : (e.pending slot).active = true) (status : Text) (price : Int)
    (qty : Word) :
    ((e.settle slot status price qty).pending slot).active = false ∧
      (e.settle slot status price qty).fills =
        if status = Text.filled then (fillOf (e.pending slot).side, qty, price) :: e.fills
        else e.fills := by
  rw [settle, if_pos hactive]
  refine ⟨by rw [modify_pending], ?_⟩
  by_cases hfilled : status = Text.filled
  · simp only [statusIsFilled, hfilled, decide_true, if_true, modify]
  · simp only [statusIsFilled, hfilled, decide_false, Bool.false_eq_true, if_false, modify]

/-- `order_cb` and a terminal status. -/
theorem orderCb_spec (hactive : (e.pending slot).active = true) (hstatus : o.HasStatus status)
    (hterm : statusIsTerminal status = true) {http : ℕ} (hhttp : 200 ≤ http ∧ http < 300)
    {executed : Prop} :
    Reports e slot executed (e.orderCb slot (.httpMsg http o.text)) ↔
      o.Seen Text.status status ∧ (status = Text.filled ↔ executed) := by
  simp only [orderCb, if_pos hhttp]
  generalize hid : e.modify slot (fun p => { p with
    id := (copyString (bodyText o.text) Text.id 48).getD Text.noId }) = e₁
  have hactive₁ : (e₁.pending slot).active = true := by
    rw [← hid, modify_pending]
    exact hactive
  have hside : (e₁.pending slot).side = (e.pending slot).side := by rw [← hid, modify_pending]
  have hfills : e₁.fills = e.fills := by rw [← hid]; rfl
  rcases statusText_cases hstatus hterm with ⟨hseen, htext⟩ | ⟨hseen, htext⟩
  · obtain ⟨hover, hreport⟩ := settle_spec hactive₁ status
      (fillPrice (bodyText o.text) (e₁.pending slot).mark) 1
    rw [htext, if_pos hterm, and_iff_right hseen]
    rw [hside, hfills] at hreport
    exact reports_iff hover hreport
  · rw [htext, if_neg Bool.false_ne_true]
    refine iff_of_false (fun h => ?_) fun h => hseen h.1
    exact Bool.false_ne_true (h.inactive.symm.trans hactive₁)

/-- `query_cb` and a terminal status. -/
theorem queryCb_spec (hactive : (e.pending slot).active = true) (hstatus : o.HasStatus status)
    (hterm : statusIsTerminal status = true) (http : ℕ) {executed : Prop} :
    Reports e slot executed (e.queryCb slot (.httpMsg http o.text)) ↔
      o.Seen Text.status status ∧
        (status = Text.filled ∧ ¬o.Seen Text.filledQty ['0'] ↔ executed) := by
  have hdone : ∀ (e₁ : Exec) (sees : Prop) [Decidable sees] (price : Int),
      (e₁.pending slot).active = false → e₁.fills =
        (if sees then (fillOf (e.pending slot).side, 1, price) :: e.fills else e.fills) →
      (Reports e slot executed (e₁.modify slot fun p => { p with queryInFlight := false }) ↔
        (sees ↔ executed)) := by
    intro e₁ sees _ price hover hreport
    refine reports_iff ?_ hreport
    rw [modify_pending]
    exact hover
  simp only [queryCb]
  rcases statusText_cases hstatus hterm with ⟨hseen, htext⟩ | ⟨hseen, htext⟩
  · rw [htext, if_pos hterm, and_iff_right hseen]
    by_cases hzero : o.Seen Text.filledQty ['0']
    · rw [if_pos (seen_filledQty_iff.mpr hzero), if_neg fun h => h rfl]
      refine Iff.trans (hdone _ False 0 ?_ rfl) ?_
      · rw [modify_pending]
      · simp [hzero]
    · rw [if_neg fun h => hzero (seen_filledQty_iff.mp h), if_pos (by decide)]
      obtain ⟨hover, hreport⟩ := settle_spec hactive status
        (fillPrice (bodyText o.text) (e.pending slot).mark) 1
      exact (hdone _ _ _ hover hreport).trans (by simp [hzero])
  · rw [htext, if_neg Bool.false_ne_true]
    refine iff_of_false (fun h => ?_) fun h => hseen h.1
    have hstill := h.inactive
    rw [modify_pending] at hstill
    exact Bool.false_ne_true (hstill.symm.trans hactive)

end Exec

open JsonObject Exec

/-- **Executed quantity.** A response that ends an order is reported as it should be when its status
is seen, and the callback reports a fill of what it sees just if something was executed. -/
theorem executed_quantity (e : Exec) (slot : Slot) (callback : Callback) (o : JsonObject)
    (status : Text) (http : ℕ) (hactive : (e.pending slot).active = true)
    (hhttp : 200 ≤ http ∧ http < 300) (hstatus : o.HasStatus status)
    (hterm : statusIsTerminal status = true) :
    Reports e slot (o.Executed status) (e.deliver slot callback (.httpMsg http o.text)) ↔
      o.Seen Text.status status ∧ (SeesFill o status callback ↔ o.Executed status) := by
  cases callback with
  | order => exact orderCb_spec hactive hstatus hterm hhttp
  | query => exact queryCb_spec hactive hstatus hterm http

/-! ### A partial fill -/

namespace OrderObject

/-- A member as the broker writes it: a string, and no blanks. -/
def field (name raw : Text) (hname : ∀ c ∈ name, c ≠ Text.quote ∧ c ≠ Text.backslash ∧
    c ≠ Text.terminator) (hraw : ∀ c ∈ raw, c ≠ Text.quote ∧ c ≠ Text.backslash ∧
    c ≠ Text.terminator) : JsonMember where
  before := []
  name := name
  beforeColon := []
  afterColon := []
  value := .string raw (Json.escaped_of_plain hraw)
  behind := []
  plain := hname
  blanks := no_blanks

/-- An order object with a status and a quantity. -/
def withQuantity (status qty : Text) (hstatus : ∀ c ∈ status, c ≠ Text.quote ∧
    c ≠ Text.backslash ∧ c ≠ Text.terminator) (hqty : ∀ c ∈ qty, c ≠ Text.quote ∧
    c ≠ Text.backslash ∧ c ≠ Text.terminator) : JsonObject where
  lead := []
  first := field Text.id ['7'] (Text.forall_of_all (by decide)) (Text.forall_of_all (by decide))
  others := [field Text.status status (Text.forall_of_all (by decide)) hstatus,
    field Text.filledQty qty (Text.forall_of_all (by decide)) hqty]
  trail := []
  blanks := by simp
  nodup := (by decide : [Text.id, Text.status, Text.filledQty].Nodup)

/-- `{"id":"7","status":"filled","filled_qty":"0.001"}`. -/
def whole : JsonObject :=
  withQuantity Text.filled ['0', '.', '0', '0', '1'] (Text.forall_of_all (by decide))
    (Text.forall_of_all (by decide))

/-- `{"id":"7","status":"canceled","filled_qty":"0.0004"}`. -/
def partly : JsonObject :=
  withQuantity Text.canceled ['0', '.', '0', '0', '0', '4'] (Text.forall_of_all (by decide))
    (Text.forall_of_all (by decide))

theorem quantity_whole : whole.quantity = some ['0', '.', '0', '0', '1'] := rfl

theorem quantity_partly : partly.quantity = some ['0', '.', '0', '0', '0', '4'] := rfl

/-- One order to buy, whose id has come. -/
def following : Exec :=
  (Exec.create ⟨1000, 500, false⟩ true).modify 0 fun _ => ⟨true, ['7'], signalBuy, 100, 0, 0, true⟩

end OrderObject

/-- The filled order is reported as a fill of one lot. -/
theorem executed_quantity_whole :
    Reports OrderObject.following 0 (OrderObject.whole.Executed Text.filled)
      (OrderObject.following.deliver 0 .order (.httpMsg 200 OrderObject.whole.text)) := by
  refine (executed_quantity OrderObject.following 0 .order OrderObject.whole Text.filled 200 rfl
    (by decide) ⟨_, List.mem_cons_of_mem _ List.mem_cons_self, rfl, _, rfl⟩ (by decide)).mpr
    ⟨⟨⟨_, List.mem_cons_of_mem _ List.mem_cons_self, rfl, ⟨rfl, rfl⟩, _, rfl⟩, by decide⟩, ?_⟩
  refine iff_of_true rfl ?_
  rw [Executed, OrderObject.quantity_whole]
  exact ⟨'1', by decide⟩

/-- A canceled order with an executed quantity is not reported. -/
theorem not_executed_quantity :
    ¬∀ (e : Exec) (slot : Slot) (callback : Callback) (o : JsonObject) (status : Text) (http : ℕ),
      (e.pending slot).active = true → (200 ≤ http ∧ http < 300) → o.HasStatus status →
      statusIsTerminal status = true →
      Reports e slot (o.Executed status) (e.deliver slot callback (.httpMsg http o.text)) := by
  intro h
  have hstatus : OrderObject.partly.HasStatus Text.canceled :=
    ⟨_, List.mem_cons_of_mem _ List.mem_cons_self, rfl, _, rfl⟩
  have hreports := h OrderObject.following 0 .query OrderObject.partly Text.canceled 200 rfl
    (by decide) hstatus (by decide)
  have hsees := ((queryCb_spec rfl hstatus (by decide) 200).mp hreports).2
  have hexec : OrderObject.partly.Executed Text.canceled := by
    rw [Executed, OrderObject.quantity_partly]
    exact ⟨'4', by decide⟩
  exact absurd (hsees.mpr hexec).1 (by decide)

end Fmma
