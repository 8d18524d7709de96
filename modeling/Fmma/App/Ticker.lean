import Fmma.App.Feed

/-!
# From a ticker to a quote

What the feed makes of a message that is a flat object without blanks: a quote just when it is a
ticker with two prices that are positive in cents, and then its prices in cents, at most the largest
price of the fabric, and its sizes, where they have room.
-/

namespace Fmma

open Text

/-- The text begins with a decimal, and this is what it denotes. -/
def Text.Denotes (t : Text) (x : ℚ) : Prop :=
  ∃ (d : Decimal) (rest : Text), t = d.text ++ rest ∧ d.Ends rest ∧ d.rational = x

/-- The object has a string of the name that begins with a number. -/
def CompactObject.Number (o : CompactObject) (name : Text) (x : ℚ) : Prop :=
  ∃ raw, o.HasString name raw ∧ raw.Denotes x

/-- The object is a ticker with two prices. -/
structure CompactObject.Prices (o : CompactObject) (x y : ℚ) : Prop where
  type : o.HasString ['t', 'y', 'p', 'e'] Text.ticker
  bid : o.Number Text.bestBid x
  ask : o.Number Text.bestAsk y

namespace Quote

/-- A number of cents, within the prices of the fabric. -/
def cents (x : ℚ) : Int := min Fixed.priceMax (max 0 (trunc (100 * x)))

/-- A number of cents that the fabric has no price for. -/
def Outside (x : ℚ) : Prop := trunc (100 * x) < 0 ∨ Fixed.priceMax < trunc (100 * x)

instance (x : ℚ) : Decidable (Outside x) := inferInstanceAs (Decidable (_ ∨ _))

/-- A number of ten thousandths, or 0 where there is no room for it. -/
def lots (x : ℚ) : Int :=
  if 0 < trunc (10000 * x) ∧ trunc (10000 * x) < 0x7FFFFFFF then trunc (10000 * x) else 0

/-- The size is that of a field, or 0 where the object has no such number. -/
def SizeOf (o : CompactObject) (name : Text) (w : Word) : Prop :=
  (∀ x, o.Number name x → (w.toNat : Int) = lots x) ∧ ((¬∃ x, o.Number name x) → w = 0)

/-- The quote of a ticker. -/
structure Of (o : CompactObject) (x y : ℚ) (q : Quote) : Prop where
  bid : (q.bid.toNat : Int) = cents x
  ask : (q.ask.toNat : Int) = cents y
  bidSize : SizeOf o Text.bestBidSize q.bidSize
  askSize : SizeOf o Text.bestAskSize q.askSize

end Quote

/-! ### Numbers in a text -/

namespace Decimal

variable (d : Decimal)

/-- There is no quote in a decimal. -/
theorem quote_notMem_text : quote ∉ d.text := by
  have hdigits : ∀ ds : List (Fin 10), quote ∉ Text.digits ds := by
    intro ds hmem
    obtain ⟨e, -, he⟩ := List.mem_map.mp hmem
    revert e
    decide
  intro hmem
  rcases List.mem_append.mp hmem with h | h
  · revert h
    cases d.sign <;> decide
  rcases List.mem_append.mp h with h | h
  · exact hdigits _ h
  · cases hf : d.fraction with
    | none =>
      rw [hf] at h
      cases h
    | some f =>
      rw [hf] at h
      rcases List.mem_cons.mp h with h | h
      · exact absurd h (by decide)
      · exact hdigits _ h

/-- A decimal at the end of a string ends at the quote. -/
theorem ends_append_quote {rest : Text} (t : Text) :
    d.Ends (rest ++ quote :: t) ↔ d.Ends rest := by
  cases rest with
  | cons c rest => exact Iff.rfl
  | nil =>
    refine iff_of_true ⟨?_, fun _ => ?_⟩ d.ends_nil
    · rintro c ⟨⟩
      decide
    · rintro c ⟨⟩
      decide

end Decimal

/-- A string is a number up to its quote just when it is one with what follows. -/
theorem Text.denotes_append_quote {s : Text} (t : Text) {x : ℚ} :
    Text.Denotes (s ++ quote :: t) x ↔ s.Denotes x := by
  constructor
  · rintro ⟨d, rest, htext, hends, hx⟩
    rcases List.append_eq_append_iff.mp htext with ⟨u, hu, hrest⟩ | ⟨u, rfl, hrest⟩
    · cases u with
      | nil =>
        rw [List.append_nil] at hu
        exact ⟨d, [], by rw [List.append_nil, hu], d.ends_nil, hx⟩
      | cons c u =>
        -- the quote would be in the decimal
        obtain ⟨rfl, -⟩ := List.cons_eq_cons.mp hrest
        refine absurd ?_ d.quote_notMem_text
        rw [hu]
        exact List.mem_append_right _ List.mem_cons_self
    · rw [hrest, d.ends_append_quote] at hends
      exact ⟨d, u, rfl, hends, hx⟩
  · rintro ⟨d, rest, rfl, hends, hx⟩
    exact ⟨d, rest ++ quote :: t, List.append_assoc _ _ _, (d.ends_append_quote t).mpr hends, hx⟩

namespace Fixed

variable {s : Text} {x : ℚ}

theorem parseScaled_denotes (hs : s.Denotes x) {k : ℕ} (hk : k ≤ 9) :
    ∃ d : Decimal, d.rational = x ∧ parseScaled s (10 ^ k) =
      d.sign.apply ((Numeral.lead 10 8 d.units : ℤ) * 10 ^ k + d.places k) := by
  obtain ⟨d, rest, rfl, hends, hx⟩ := hs
  exact ⟨d, hx, parseScaled_text d hends hk⟩

/-- A number is no error. -/
theorem parseScaled_ne_error (hs : s.Denotes x) : parseScaled s priceScale ≠ parseError := by
  obtain ⟨d, -, hparse⟩ := parseScaled_denotes hs (k := 2) (by decide)
  have hlead := Numeral.lead_lt (b := 10) (by decide) 8 d.units
  have hplaces := d.places_lt 2
  rw [priceScale, show (100 : ℕ) = 10 ^ 2 from rfl, hparse, parseError]
  cases d.sign with
  | none | plus | minus =>
    simp only [DecimalSign.apply]
    omega

/-- No number is an error. -/
theorem parseScaled_of_not_denotes (h : ¬∃ x, s.Denotes x) (scale : ℕ) :
    parseScaled s scale = parseError := by
  refine parseScaled_error scale ?_
  rintro ⟨d, rest, htext, hends⟩
  exact h ⟨d.rational, d, rest, htext, hends, rfl⟩

/-- A price is the number of cents, clamped. -/
theorem clampPrice_denotes (hs : s.Denotes x) :
    ((clampPrice (parseScaled s priceScale)).1.toNat : Int) = Quote.cents x ∧
      ((clampPrice (parseScaled s priceScale)).2 = true ↔ Quote.Outside x) := by
  obtain ⟨d, rest, rfl, hends, rfl⟩ := hs
  have hprice := parseScaled_price d hends
  have hmax : (0 : Int) < priceMax := by decide
  obtain ⟨hvalue, hflag⟩ := clampPrice_spec (parseScaled (d.text ++ rest) priceScale)
  rw [hvalue, hflag, Quote.cents, Quote.Outside]
  omega

/-- A size is the number of ten thousandths, where there is room for it. -/
theorem lots_denotes (hs : s.Denotes x) :
    (if 0 < parseScaled s 10000 ∧ parseScaled s 10000 < 0x7FFFFFFF then parseScaled s 10000
      else 0) = Quote.lots x := by
  obtain ⟨d, rest, rfl, hends, rfl⟩ := hs
  have htrunc := d.trunc_rational 4
  have hparse := parseScaled_text (k := 4) d hends (by decide)
  have hscale : (10 : ℚ) ^ 4 = 10000 := by norm_num
  rw [hscale] at htrunc
  rw [Quote.lots, show (10000 : ℕ) = 10 ^ 4 from rfl, hparse, htrunc]
  by_cases hsmall : d.units < 10 ^ 9
  · rw [Numeral.lead_eq_self (by decide) hsmall]
  · -- the integer part has been cut, and there is still no room
    have hout : ∀ n : ℕ, 10 ^ 8 ≤ n → ¬(0 < d.sign.apply ((n : ℤ) * 10 ^ 4 + d.places 4) ∧
        d.sign.apply ((n : ℤ) * 10 ^ 4 + d.places 4) < 0x7FFFFFFF) := by
      intro n hn
      cases d.sign with
      | none | plus | minus =>
        simp only [DecimalSign.apply]
        omega
    rw [if_neg (hout _ (Numeral.pow_le_lead (by decide) (by omega))), if_neg (hout _ (by omega))]

end Fixed

/-! ### Fields of a message -/

namespace CompactObject

open Json

variable {o : CompactObject} {name : Text} {x : ℚ}

/-- The object is all of the C string it is in. -/
theorem ofBuffer_text (o : CompactObject) : Text.ofBuffer o.text = o.text := by
  have hbraces : ∀ c ∈ o.text, c ≠ terminator := by
    intro c hc
    rw [text] at hc
    rcases List.mem_cons.mp hc with rfl | hmem
    · decide
    cases hfields : o.fields with
    | nil =>
      rw [hfields] at hmem
      rw [List.mem_singleton.mp hmem]
      decide
    | cons f fs =>
      rw [hfields, rest_eq, ← f.text_member] at hmem
      rcases List.mem_append.mp hmem with h | h
      · exact JsonObject.ne_terminator_of_member h
      · refine JsonObject.ne_terminator_of_rest ?_ h
        rintro c ⟨⟩
  exact List.takeWhile_eq_self_iff.mpr fun c hc => decide_eq_true (hbraces c hc)

/-- A number is read where it stands. -/
theorem string_of_number (hn : Sought name) (h : o.Number name x) :
    ∃ s, string o.text name = some s ∧ s.Denotes x := by
  obtain ⟨raw, hraw, hx⟩ := h
  obtain ⟨r, hr⟩ := string_of_hasString hn hraw
  exact ⟨_, hr, (Text.denotes_append_quote r).mpr hx⟩

/-- Where there is no number, there is no string or no number in it. -/
theorem string_of_not_number (hn : Sought name) (h : ¬∃ x, o.Number name x) :
    string o.text name = none ∨ ∃ s, string o.text name = some s ∧ ¬∃ x, s.Denotes x := by
  by_cases hfield : ∃ raw, o.HasString name raw
  · obtain ⟨raw, hraw⟩ := hfield
    obtain ⟨r, hr⟩ := string_of_hasString hn hraw
    refine .inr ⟨_, hr, ?_⟩
    rintro ⟨x, hx⟩
    exact h ⟨x, raw, hraw, (Text.denotes_append_quote r).mp hx⟩
  · exact .inl (string_eq_none hn (not_exists.mp hfield))

end CompactObject

namespace MarketFeed

open Json CompactObject

variable {f : MarketFeed} {o : CompactObject} {x y : ℚ}

/-- The size a field gives. -/
theorem sizeOf_size (o : CompactObject) {name : Text} (hn : Sought name) :
    Quote.SizeOf o name (size o.text name) := by
  have hword : ∀ v : Int, (((if 0 < v ∧ v < 0x7FFFFFFF then BitVec.ofInt 32 v else 0 : Word).toNat :
      ℕ) : Int) = if 0 < v ∧ v < 0x7FFFFFFF then v else 0 := by
    intro v
    split_ifs with h
    · rw [BitVec.toNat_ofInt]
      omega
    · rfl
  refine ⟨fun x hx => ?_, fun hnone => ?_⟩
  · obtain ⟨s, hs, hx⟩ := string_of_number hn hx
    rw [← Fixed.lots_denotes hx]
    simp only [size, hs]
    exact hword _
  · rcases string_of_not_number hn hnone with hs | ⟨s, hs, hnot⟩
    · simp only [size, hs]
    · simp only [size, hs, Fixed.parseScaled_of_not_denotes hnot]
      rfl

theorem word_bestBid : ∀ c ∈ Text.bestBid, IsWord c := Text.forall_of_all (by decide)

theorem word_bestAsk : ∀ c ∈ Text.bestAsk, IsWord c := Text.forall_of_all (by decide)

theorem sought_bestBid : Sought Text.bestBid := sought_of_word word_bestBid (by decide)

theorem sought_bestAsk : Sought Text.bestAsk := sought_of_word word_bestAsk (by decide)

/-- A message without two prices is nothing to the handler. -/
theorem handleTicker_of_not (f : MarketFeed)
    (h : ¬∃ x y, o.Number Text.bestBid x ∧ o.Number Text.bestAsk y) :
    f.handleTicker o.text = (f, none) := by
  have hside : (¬∃ x, o.Number Text.bestBid x) ∨ ¬∃ y, o.Number Text.bestAsk y := by
    by_contra hboth
    obtain ⟨⟨x, hx⟩, y, hy⟩ := not_or.mp hboth |>.imp not_not.mp not_not.mp
    exact h ⟨x, y, hx, hy⟩
  rw [handleTicker]
  rcases hside with hbid | hask
  · rcases string_of_not_number sought_bestBid hbid with hs | ⟨s, hs, hnot⟩
    · simp only [hs]
    · cases hask : string o.text Text.bestAsk with
      | none => simp only [hs]
      | some u => simp only [hs, Fixed.parseScaled_of_not_denotes hnot, true_or, if_true]
  · rcases string_of_not_number sought_bestAsk hask with hs | ⟨s, hs, hnot⟩
    · cases hbid : string o.text Text.bestBid <;> simp only [hs]
    · cases hbid : string o.text Text.bestBid with
      | none => simp only
      | some u => simp only [hs, Fixed.parseScaled_of_not_denotes hnot, or_true, if_true]

/-- What the handler makes of two prices. -/
theorem handleTicker_of_prices (f : MarketFeed) (hx : o.Number Text.bestBid x)
    (hy : o.Number Text.bestAsk y) :
    (f.handleTicker o.text).1 = { f with
        clampedPrices := f.clampedPrices + if Quote.Outside x ∨ Quote.Outside y then 1 else 0 } ∧
      ((f.handleTicker o.text).2 = none ↔ trunc (100 * x) ≤ 0 ∨ trunc (100 * y) ≤ 0) ∧
      ∀ q ∈ (f.handleTicker o.text).2, Quote.Of o x y q := by
  obtain ⟨s, hs, hsx⟩ := string_of_number sought_bestBid hx
  obtain ⟨u, hu, huy⟩ := string_of_number sought_bestAsk hy
  obtain ⟨hbid, hflagB⟩ := Fixed.clampPrice_denotes hsx
  obtain ⟨hask, hflagA⟩ := Fixed.clampPrice_denotes huy
  have hzero : ∀ {w : Word} {z : ℚ}, (w.toNat : Int) = Quote.cents z →
      (w = 0 ↔ trunc (100 * z) ≤ 0) := by
    intro w z hw
    have hmax : (0 : Int) < Fixed.priceMax := by decide
    have hnat : (0 : Word).toNat = 0 := rfl
    rw [Quote.cents] at hw
    rw [← BitVec.toNat_inj, hnat]
    omega
  rw [handleTicker]
  simp only [hs, hu]
  rw [if_neg (not_or.mpr ⟨Fixed.parseScaled_ne_error hsx, Fixed.parseScaled_ne_error huy⟩)]
  have hcount : (if (Fixed.clampPrice (Fixed.parseScaled s Fixed.priceScale)).2 ||
        (Fixed.clampPrice (Fixed.parseScaled u Fixed.priceScale)).2 then
        { f with clampedPrices := f.clampedPrices + 1 } else f) =
      { f with
        clampedPrices :=
          f.clampedPrices + if Quote.Outside x ∨ Quote.Outside y then 1 else 0 } := by
    simp only [Bool.or_eq_true, hflagB, hflagA]
    split_ifs <;> rfl
  rw [hcount]
  by_cases hnone : (Fixed.clampPrice (Fixed.parseScaled s Fixed.priceScale)).1 = 0 ∨
      (Fixed.clampPrice (Fixed.parseScaled u Fixed.priceScale)).1 = 0
  · rw [if_pos hnone]
    rw [hzero hbid, hzero hask] at hnone
    refine ⟨rfl, iff_of_true rfl hnone, ?_⟩
    rintro q ⟨⟩
  · rw [if_neg hnone]
    rw [hzero hbid, hzero hask] at hnone
    refine ⟨rfl, iff_of_false (Option.some_ne_none _) hnone, ?_⟩
    rintro q ⟨⟩
    exact ⟨hbid, hask, sizeOf_size o (sought_of_word (Text.forall_of_all (by decide)) (by decide)),
      sizeOf_size o (sought_of_word (Text.forall_of_all (by decide)) (by decide))⟩

end MarketFeed

open CompactObject in
/-- **From a ticker to a quote.** A message that there is room for, and that is a flat object
without blanks, changes nothing unless it is a ticker with two prices. If it is, a price outside
the prices of the fabric is counted, and there is a quote just when both are a cent or more: the
number of cents, clamped, and the sizes. -/
theorem ticker_exact (f : MarketFeed) (o : CompactObject) (nowUs : ℕ) (allocated : Bool)
    (hroom : o.text.length < 2048 ∨ allocated = true) :
    ((¬∃ x y, o.Prices x y) → f.feedCb nowUs (.wsMsg o.text allocated) = (f, none)) ∧
    ∀ x y, o.Prices x y →
      (f.feedCb nowUs (.wsMsg o.text allocated)).1 = { f with
        clampedPrices := f.clampedPrices + if Quote.Outside x ∨ Quote.Outside y then 1 else 0 } ∧
      ((f.feedCb nowUs (.wsMsg o.text allocated)).2 = none ↔
        trunc (100 * x) ≤ 0 ∨ trunc (100 * y) ≤ 0) ∧
      ∀ q ∈ (f.feedCb nowUs (.wsMsg o.text allocated)).2, Quote.Of o x y q := by
  have hfits : ¬(2048 < o.text.length + 1 ∧ allocated = false) := by
    rintro ⟨hlen, hfull⟩
    rcases hroom with h | h
    · omega
    · exact Bool.false_ne_true (hfull.symm.trans h)
  have htype : Json.typeIs o.text Text.ticker = true ↔
      o.HasString ['t', 'y', 'p', 'e'] Text.ticker :=
    typeIs_iff (Text.forall_of_all (by decide))
  rw [MarketFeed.feedCb, if_neg hfits, ofBuffer_text]
  constructor
  · intro hnone
    split_ifs with h
    · refine f.handleTicker_of_not ?_
      rintro ⟨x, y, hx, hy⟩
      exact hnone ⟨x, y, htype.mp h, hx, hy⟩
    · rfl
  · intro x y hprices
    rw [if_pos (htype.mpr hprices.type)]
    exact f.handleTicker_of_prices hprices.bid hprices.ask

/-! ### A message -/

namespace TickerMessage

/-- `12.34`. -/
def bid : Decimal := ⟨.none, [1, 2], some [3, 4], List.cons_ne_nil _ _⟩

/-- `12.36`. -/
def ask : Decimal := ⟨.none, [1, 2], some [3, 6], List.cons_ne_nil _ _⟩

theorem word_type : ∀ c ∈ (['t', 'y', 'p', 'e'] : Text), IsWord c :=
  Text.forall_of_all (by decide)

theorem plain_ticker : ∀ c ∈ Text.ticker, c ≠ quote ∧ c ≠ backslash ∧ c ≠ terminator :=
  Text.forall_of_all (by decide)

theorem plain_bid : ∀ c ∈ bid.text, c ≠ quote ∧ c ≠ backslash ∧ c ≠ terminator :=
  Text.forall_of_all (by decide)

theorem plain_ask : ∀ c ∈ ask.text, c ≠ quote ∧ c ≠ backslash ∧ c ≠ terminator :=
  Text.forall_of_all (by decide)

theorem nodup_names : [['t', 'y', 'p', 'e'], Text.bestBid, Text.bestAsk].Nodup := by
  decide

/-- `{"type":"ticker","best_bid":"12.34","best_ask":"12.36"}`. -/
def object : CompactObject where
  fields :=
    [⟨['t', 'y', 'p', 'e'], .string Text.ticker plain_ticker, word_type⟩,
      ⟨Text.bestBid, .string bid.text plain_bid, MarketFeed.word_bestBid⟩,
      ⟨Text.bestAsk, .string ask.text plain_ask, MarketFeed.word_bestAsk⟩]
  nodup := nodup_names

theorem prices : object.Prices bid.rational ask.rational where
  type := ⟨_, .head _, rfl, _, rfl⟩
  bid := ⟨bid.text, ⟨_, .tail _ (.head _), rfl, _, rfl⟩, bid, [], (List.append_nil _).symm,
    bid.ends_nil, rfl⟩
  ask := ⟨ask.text, ⟨_, .tail _ (.tail _ (.head _)), rfl, _, rfl⟩, ask, [],
    (List.append_nil _).symm, ask.ends_nil, rfl⟩

end TickerMessage

open TickerMessage in
/-- The message is a quote of its prices. -/
theorem ticker_exact_message :
    (MarketFeed.create.feedCb 0 (.wsMsg object.text false)).2 = some ⟨1234, 1236, 0, 0⟩ ∧
      Quote.Of object bid.rational ask.rational ⟨1234, 1236, 0, 0⟩ := by
  have hquote : (MarketFeed.create.feedCb 0 (.wsMsg object.text false)).2 =
      some ⟨1234, 1236, 0, 0⟩ := by
    decide +kernel
  have hexact := ticker_exact .create object 0 false (.inl (by decide +kernel))
  exact ⟨hquote, (hexact.2 _ _ prices).2.2 _ hquote⟩

end Fmma
