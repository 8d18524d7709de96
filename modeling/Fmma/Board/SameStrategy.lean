import Fmma.Board.Mirror
import Mathlib.Tactic.IntervalCases

/-!
# The software and the fabric are one strategy

The host's stores and the program's steps keep the invariant of `Fmma.Board.Mirror`. The two differ
where the ends of the band leave the signed 32-bit numbers: at the top of the range of prices the
fabric sells at a quote that does not move.
-/

namespace Fmma

namespace Mirror

variable {t : Thread} {m : Addr → Word} {h h' : Mirror} {x : Option (Access Addr Word)}

/-! ### The host's steps -/

/-- What is stored of a quote, and of a fill. -/
theorem stored_quote_iff {bid ask bidSize askSize : Word}
    (he : h.event = some (.quote bid ask bidSize askSize)) :
    Stored m h ↔ Quoting m h bid ask bidSize askSize := by
  rw [Stored, he]

theorem stored_fill_iff {bought : Bool} (he : h.event = some (.fill bought)) :
    Stored m h ↔ Reporting m h bought := by
  rw [Stored, he]

/-- All of a call's stores have been made. -/
theorem eq_length_of_drop {l : List (Addr × Word)} {k : ℕ} (hk : k ≤ l.length)
    (htodo : h.todo = []) (hdrop : h.todo = l.drop k) : k = l.length :=
  hk.antisymm (List.drop_eq_nil_iff.mp (hdrop.symm.trans htodo))

/-- With the last store of a publish, the quote is in the RAM. -/
theorem Quoting.done {b w y z : Word} (hq : Quoting m h b w y z) (htodo : h.todo = []) :
    m tickSeq = h.fpga.tickSeq ∧ m Fmma.bid = b ∧ m Fmma.ask = w := by
  obtain ⟨htick, -, k, hk, hdrop, hseq, hbid, hask⟩ := hq
  obtain rfl : k = 6 := eq_length_of_drop hk htodo hdrop
  exact ⟨hseq.trans htick.symm, hbid (by omega), hask (by omega)⟩

/-- With the last store of a report, the fill is in the mailbox. -/
theorem Reporting.done {bought : Bool} (hr : Reporting m h bought) (htodo : h.todo = []) :
    m fillSeq = h.fpga.fillSeq ∧ m fillSide = MarketEvent.side bought ∧ m fillQty = 1 := by
  obtain ⟨-, hfill, k, hk, hdrop, hseq, hside, hqty⟩ := hr
  obtain rfl : k = 3 := eq_length_of_drop hk htodo hdrop
  exact ⟨hseq.trans hfill.symm, hside (by omega), hqty (by omega)⟩

/-- With the last store of a call, the counters in the RAM are those of the handle. -/
theorem Stored.done (hs : Stored m h) (htodo : h.todo = []) :
    m tickSeq = h.fpga.tickSeq ∧ m fillSeq = h.fpga.fillSeq := by
  unfold Stored at hs
  cases hevent : h.event with
  | none =>
    rw [hevent] at hs
    exact ⟨hs.2.1, hs.2.2.1⟩
  | some e =>
    rw [hevent] at hs
    cases e with
    | quote b a v w => exact ⟨(Quoting.done hs htodo).1, hs.fill.2.trans hs.fill.1.symm⟩
    | fill bought => exact ⟨hs.tick.2.trans hs.tick.1.symm, (Reporting.done hs htodo).1⟩

/-- The points at which the program waits for an event. -/
def AtRest : Point → Prop
  | .loop | .beat | .restart | .fillSeq | .tickSeq => True
  | _ => False

/-- The program starts up, is at work on an event, or waits for one. -/
theorem Body.stage (hb : Body t m h) : (h.event = none ∧ h.beats = 0) ∨
    (h.todo = [] ∧ h.beats ≤ 1) ∨
      (AtRest t.point ∧ ((h.Old t.regs m ∧ h.beats ≤ 1) ∨ h.New t.regs m)) := by
  obtain ⟨point, r⟩ := t
  cases point with
  | loop => exact .inr (.inr ⟨trivial, hb.imp_left fun hold => ⟨hold.1, by omega⟩⟩)
  | beat => exact .inr (.inr ⟨trivial, hb.imp_left fun hold => ⟨hold.1, by omega⟩⟩)
  | restart => exact .inr (.inr ⟨trivial, hb⟩)
  | fillSeq => exact .inr (.inr ⟨trivial, hb⟩)
  | tickSeq =>
    refine .inr (.inr ⟨trivial, hb.imp_left fun hold => ⟨hold.1, ?_⟩⟩)
    rcases hold.2 with h0 | ⟨h1, -⟩
    · omega
    · exact h1
  | storePosition => exact .inr (.inl ⟨hb.2.todo, hb.1⟩)
  | initPosition => exact .inl ⟨hb.1, hb.2.1⟩
  | initFill => exact .inl ⟨hb.1, hb.2.1⟩
  | clear i => exact .inl ⟨hb.1, hb.2.1⟩
  | setStatus => exact .inl ⟨hb.1, hb.2.1⟩
  | setVersion => exact .inl ⟨hb.1, hb.2.1⟩
  | fillSide =>
    obtain ⟨bought, hf⟩ := hb
    exact .inr (.inl ⟨hf.busy.todo, hf.busy.beats⟩)
  | fillQty side =>
    obtain ⟨bought, hf, -⟩ := hb
    exact .inr (.inl ⟨hf.busy.todo, hf.busy.beats⟩)
  | addFill bought qty => exact .inr (.inl ⟨hb.1.busy.todo, hb.1.busy.beats⟩)
  | bid seq => exact .inr (.inl ⟨hb.1.busy.todo, hb.1.busy.beats⟩)
  | ask seq => exact .inr (.inl ⟨hb.1.busy.todo, hb.1.busy.beats⟩)
  | tickSeq2 seq => exact .inr (.inl ⟨hb.1.busy.todo, hb.1.busy.beats⟩)
  | commit seq => exact .inr (.inl ⟨hb.1.busy.todo, hb.1.busy.beats⟩)
  | thresh sum => exact .inr (.inl ⟨hb.1.todo, hb.1.beats⟩)
  | enable side => exact .inr (.inl ⟨hb.busy.todo, hb.busy.beats⟩)
  | maxPos side => exact .inr (.inl ⟨hb.busy.todo, hb.busy.beats⟩)
  | signal side => exact .inr (.inl ⟨hb.1.busy.todo, hb.1.busy.beats⟩)
  | signalTick => exact .inr (.inl ⟨hb.1.busy.todo, hb.1.busy.beats⟩)
  | status => exact .inr (.inl ⟨hb.1.busy.todo, hb.1.busy.beats⟩)
  | signalSeq => exact .inr (.inl ⟨hb.1.busy.todo, hb.1.busy.beats⟩)
  | signalSeqStore v => exact .inr (.inl ⟨hb.1.busy.todo, hb.1.busy.beats⟩)
  | rejectStatus v => exact .inr (.inl ⟨hb.busy.todo, hb.busy.beats⟩)
  | rejects => exact .inr (.inl ⟨hb.busy.todo, hb.busy.beats⟩)
  | rejectsStore v => exact .inr (.inl ⟨hb.1.busy.todo, hb.1.busy.beats⟩)
  | _ => exact hb.elim

/-- Before an event, the program is done with the last one. -/
theorem Body.settled (hb : Body t m h) (hbeats : 2 ≤ h.beats) :
    h.New t.regs m ∧ AtRest t.point := by
  rcases hb.stage with ⟨-, h0⟩ | ⟨-, h1⟩ | ⟨hrest, ⟨-, h1⟩ | hnew⟩
  · omega
  · omega
  · omega
  · exact ⟨hnew, hrest⟩

/-- In the middle of a call, the program has not seen the event. -/
theorem Body.waits (hb : Body t m h) (htodo : h.todo ≠ []) (hevent : h.event ≠ none) :
    h.Old t.regs m ∧ AtRest t.point := by
  rcases hb.stage with ⟨hnone, -⟩ | ⟨hnil, -⟩ | ⟨hrest, ⟨hold, -⟩ | hnew⟩
  · exact absurd hnone hevent
  · exact absurd hnil htodo
  · exact ⟨hold, hrest⟩
  · exact absurd hnew.todo htodo

/-- The program waits, and has not seen the event. -/
theorem Body.of_old {r : Regs} {p : Point} (hrest : AtRest p) (hold : h.Old r m)
    (hbeats : h.beats = 0) : Body ⟨p, r⟩ m h := by
  cases p with
  | loop => exact .inl ⟨hold, hbeats⟩
  | beat => exact .inl ⟨hold, hbeats⟩
  | restart => exact .inl ⟨hold, by omega⟩
  | fillSeq => exact .inl ⟨hold, by omega⟩
  | tickSeq => exact .inl ⟨hold, .inl hbeats⟩
  | _ => exact hrest.elim

/-- The anchor of the software stays in range. -/
theorem handle_range {σ : SoftStrategy} {e : MarketEvent} (hσ : 0 ≤ σ.anchor ∧ σ.anchor < 2 ^ 31)
    (he : e.Admissible) : 0 ≤ (σ.handle e).2.anchor ∧ (σ.handle e).2.anchor < 2 ^ 31 := by
  cases e with
  | fill bought =>
    simp only [SoftStrategy.handle, SoftStrategy.onFill]
    split_ifs <;> exact hσ
  | quote b a v w =>
    obtain ⟨⟨hb1, hb2⟩, ha1, ha2⟩ := he
    rw [priceMax] at hb2 ha2
    have hb : b ≠ 0 := by
      rintro rfl
      exact absurd hb1 (by decide)
    have ha : a ≠ 0 := by
      rintro rfl
      exact absurd ha1 (by decide)
    rw [SoftStrategy.handle, (SoftStrategy.onQuote_moves hb ha).1]
    omega

/-- The counters of the handle after the event. -/
theorem handle_counters (f : Fpga) (e : MarketEvent) (heven : f.tickSeq &&& 1 = 0) :
    (f.handle e).2.tickSeq &&& 1 = 0 := by
  cases e with
  | quote b a v w =>
    change (f.tickSeq + 1 + 1) &&& 1 = 0
    rw [BitVec.add_assoc]
    exact even_add_two heven
  | fill bought => exact heven

/-- **The next event.** -/
theorem Inv.begin (hI : Inv t m h) {e : MarketEvent} (htodo : h.todo = []) (hbeats : 2 ≤ h.beats)
    (he : e.Admissible) (hok : e.Faithful h.soft) : Inv t m (h.begin e m) := by
  obtain ⟨hc, hs, hevent, hb⟩ := hI
  obtain ⟨hnew, hpoint⟩ := hb.settled hbeats
  obtain ⟨htick, hfill⟩ := hs.done htodo
  have hsoft : h.soft.threshold = h.prev.threshold ∧ h.soft.maxPosition = h.prev.maxPosition ∧
      h.soft.enabled = h.prev.enabled := by
    unfold soft
    cases h.event with
    | none => exact ⟨rfl, rfl, rfl⟩
    | some e => exact h.prev.handle_config e
  have hrange : 0 ≤ h.soft.anchor ∧ h.soft.anchor < 2 ^ 31 := by
    unfold soft
    cases hlast : h.event with
    | none => exact hc.range
    | some e => exact handle_range hc.range (hevent e hlast).1
  have hold : (h.begin e m).Old t.regs m :=
    ⟨by rintro ⟨⟩, ⟨hnew.regs.anchor, hnew.regs.position, hnew.regs.tick, hnew.regs.fill⟩, rfl, rfl⟩
  refine ⟨⟨hc.thresh.trans hsoft.1.symm, hc.maxPos.trans hsoft.2.1.symm, hc.enable, hc.restart,
    hsoft.2.2.trans hc.enabled, hrange, handle_counters _ _ hc.even, fun _ => rfl⟩, ?_, ?_, ?_⟩
  · cases e with
    | quote b a v w =>
      refine ⟨?_, ⟨rfl, hfill⟩, 0, by omega, ?_, ?_, by omega, by omega⟩
      · exact BitVec.add_assoc _ 1 1
      · change (h.fpga.publishTick b a v w).1 = _
        rw [Fpga.publishTick, BitVec.add_assoc]
        rfl
      · exact htick.trans (BitVec.add_zero _).symm
    | fill bought =>
      refine ⟨⟨rfl, htick⟩, rfl, 0, by omega, rfl, ?_, by omega, by omega⟩
      exact hfill.trans (BitVec.add_zero _).symm
  · rintro e' ⟨⟩
    exact ⟨he, hok⟩
  · exact .of_old hpoint hold rfl

variable {a : Addr} {v : Word} {rest : List (Addr × Word)}

/-- The next store of a publish. -/
theorem Quoting.store {b w y z : Word} (hq : Quoting m h b w y z)
    (htodo : h.todo = (a, v) :: rest) :
    Quoting (Function.update m a v) { h with todo := rest } b w y z ∧
      a ∈ [tickSeq, Fmma.bid, Fmma.ask, bidSize, askSize] := by
  obtain ⟨htick, hfill, k, hk, hdrop, hseq, hbid, hask⟩ := hq
  rw [htodo] at hdrop
  have hkeep : ∀ c, a ≠ c → Function.update m a v c = m c := fun c hc =>
    Function.update_of_ne (Ne.symm hc) v m
  interval_cases k
  · obtain ⟨⟨rfl, rfl⟩, rfl⟩ : (a = tickSeq ∧ v = h.oldTick + 1) ∧ rest = _ := by simpa using hdrop
    refine ⟨⟨htick, ⟨hfill.1, (hkeep _ (by decide)).trans hfill.2⟩, 1, by omega, rfl, ?_, by omega,
      by omega⟩, by decide⟩
    exact Function.update_self _ _ m
  · obtain ⟨⟨rfl, rfl⟩, rfl⟩ : (a = Fmma.bid ∧ v = b) ∧ rest = _ := by simpa using hdrop
    refine ⟨⟨htick, ⟨hfill.1, (hkeep _ (by decide)).trans hfill.2⟩, 2, by omega, rfl, ?_,
      fun _ => ?_, by omega⟩, by decide⟩
    · exact (hkeep _ (by decide)).trans hseq
    · exact Function.update_self _ _ m
  · obtain ⟨⟨rfl, rfl⟩, rfl⟩ : (a = Fmma.ask ∧ v = w) ∧ rest = _ := by simpa using hdrop
    refine ⟨⟨htick, ⟨hfill.1, (hkeep _ (by decide)).trans hfill.2⟩, 3, by omega, rfl, ?_,
      fun _ => ?_, fun _ => ?_⟩, by decide⟩
    · exact (hkeep _ (by decide)).trans hseq
    · exact (hkeep _ (by decide)).trans (hbid (by omega))
    · exact Function.update_self _ _ m
  · obtain ⟨⟨rfl, rfl⟩, rfl⟩ : (a = bidSize ∧ v = y) ∧ rest = _ := by simpa using hdrop
    refine ⟨⟨htick, ⟨hfill.1, (hkeep _ (by decide)).trans hfill.2⟩, 4, by omega, rfl, ?_,
      fun _ => ?_, fun _ => ?_⟩, by decide⟩
    · exact (hkeep _ (by decide)).trans hseq
    · exact (hkeep _ (by decide)).trans (hbid (by omega))
    · exact (hkeep _ (by decide)).trans (hask (by omega))
  · obtain ⟨⟨rfl, rfl⟩, rfl⟩ : (a = askSize ∧ v = z) ∧ rest = _ := by simpa using hdrop
    refine ⟨⟨htick, ⟨hfill.1, (hkeep _ (by decide)).trans hfill.2⟩, 5, by omega, rfl, ?_,
      fun _ => ?_, fun _ => ?_⟩, by decide⟩
    · exact (hkeep _ (by decide)).trans hseq
    · exact (hkeep _ (by decide)).trans (hbid (by omega))
    · exact (hkeep _ (by decide)).trans (hask (by omega))
  · obtain ⟨⟨rfl, rfl⟩, rfl⟩ : (a = tickSeq ∧ v = h.oldTick + 2) ∧ rest = [] := by simpa using hdrop
    refine ⟨⟨htick, ⟨hfill.1, (hkeep _ (by decide)).trans hfill.2⟩, 6, by omega, rfl, ?_,
      fun _ => ?_, fun _ => ?_⟩, by decide⟩
    · exact Function.update_self _ _ m
    · exact (hkeep _ (by decide)).trans (hbid (by omega))
    · exact (hkeep _ (by decide)).trans (hask (by omega))
  · cases hdrop

/-- The next store of a fill. -/
theorem Reporting.store {bought : Bool} (hr : Reporting m h bought)
    (htodo : h.todo = (a, v) :: rest) :
    Reporting (Function.update m a v) { h with todo := rest } bought ∧
      a ∈ [fillSide, fillQty, fillSeq] := by
  obtain ⟨htick, hfill, k, hk, hdrop, hseq, hside, hqty⟩ := hr
  rw [htodo] at hdrop
  have hkeep : ∀ c, a ≠ c → Function.update m a v c = m c := fun c hc =>
    Function.update_of_ne (Ne.symm hc) v m
  interval_cases k
  · obtain ⟨⟨rfl, rfl⟩, rfl⟩ : (a = fillSide ∧ v = MarketEvent.side bought) ∧ rest = _ := by
      simpa using hdrop
    refine ⟨⟨⟨htick.1, (hkeep _ (by decide)).trans htick.2⟩, hfill, 1, by omega, rfl, ?_,
      fun _ => ?_, by omega⟩, by decide⟩
    · exact (hkeep _ (by decide)).trans hseq
    · exact Function.update_self _ _ m
  · obtain ⟨⟨rfl, rfl⟩, rfl⟩ : (a = fillQty ∧ v = 1) ∧ rest = _ := by simpa using hdrop
    refine ⟨⟨⟨htick.1, (hkeep _ (by decide)).trans htick.2⟩, hfill, 2, by omega, rfl, ?_,
      fun _ => ?_, fun _ => ?_⟩, by decide⟩
    · exact (hkeep _ (by decide)).trans hseq
    · exact (hkeep _ (by decide)).trans (hside (by omega))
    · exact Function.update_self _ _ m
  · obtain ⟨⟨rfl, rfl⟩, rfl⟩ : (a = fillSeq ∧ v = h.oldFill + 1) ∧ rest = [] := by
      simpa using hdrop
    refine ⟨⟨⟨htick.1, (hkeep _ (by decide)).trans htick.2⟩, hfill, 3, by omega, rfl, ?_,
      fun _ => ?_, fun _ => ?_⟩, by decide⟩
    · exact Function.update_self _ _ m
    · exact (hkeep _ (by decide)).trans (hside (by omega))
    · exact (hkeep _ (by decide)).trans (hqty (by omega))
  · cases hdrop

/-- The next store of an event. -/
theorem Stored.store (hs : Stored m h) (htodo : h.todo = (a, v) :: rest) :
    Stored (Function.update m a v) { h with todo := rest } ∧ h.event ≠ none ∧
      a ∈ [tickSeq, Fmma.bid, Fmma.ask, bidSize, askSize, fillSide, fillQty, fillSeq] := by
  have hsome : h.event ≠ none := fun he => by
    rw [Stored, he] at hs
    rw [hs.1] at htodo
    cases htodo
  obtain ⟨e, he⟩ := Option.ne_none_iff_exists'.mp hsome
  cases e with
  | quote b w y z =>
    obtain ⟨hq, ha⟩ := Quoting.store ((stored_quote_iff he).mp hs) htodo
    exact ⟨(stored_quote_iff (h := { h with todo := rest }) he).mpr hq, hsome,
      List.mem_append_left [fillSide, fillQty, fillSeq] ha⟩
  | fill bought =>
    obtain ⟨hr, ha⟩ := Reporting.store ((stored_fill_iff he).mp hs) htodo
    exact ⟨(stored_fill_iff (h := { h with todo := rest }) he).mpr hr, hsome,
      List.mem_append_right [tickSeq, Fmma.bid, Fmma.ask, bidSize, askSize] ha⟩

/-- **The next store of a call.** -/
theorem Inv.store (hI : Inv t m h) (htodo : h.todo = (a, v) :: rest) :
    Inv t (Function.update m a v) { h with todo := rest } := by
  obtain ⟨hc, hs, hevent, hb⟩ := hI
  have hne : h.todo ≠ [] := by
    rw [htodo]
    exact List.cons_ne_nil _ _
  obtain ⟨hstored, hsome, ha⟩ := hs.store htodo
  have hkeep : ∀ c,
      c ∉ [tickSeq, Fmma.bid, Fmma.ask, bidSize, askSize, fillSide, fillQty, fillSeq] →
      Function.update m a v c = m c := fun c hc => by
    have hca : c ≠ a := by
      rintro rfl
      exact hc ha
    exact Function.update_of_ne hca v m
  obtain ⟨hold, hpoint⟩ := hb.waits hne hsome
  have hbeats := hc.idle hne
  have hold' : ({ h with todo := rest } : Mirror).Old t.regs (Function.update m a v) :=
    ⟨hold.event, ⟨hold.regs.anchor, hold.regs.position, hold.regs.tick, hold.regs.fill⟩,
      (hkeep _ (by decide)).trans hold.outputs.signals,
      (hkeep _ (by decide)).trans hold.outputs.rejects⟩
  refine ⟨⟨(hkeep _ (by decide)).trans hc.thresh, (hkeep _ (by decide)).trans hc.maxPos,
    (hkeep _ (by decide)).trans hc.enable, (hkeep _ (by decide)).trans hc.restart, hc.enabled,
    hc.range, hc.even, fun _ => hbeats⟩, hstored, hevent, .of_old hpoint hold' hbeats⟩

/-- Everything the host does keeps the invariant. -/
theorem Inv.act (hI : Inv t m h) (hx : Act (fun σ e => e.Faithful σ) h m x h') :
    Inv t (Access.applyOpt m x) h' := by
  cases hx with
  | event e htodo hbeats he hok => exact hI.begin htodo hbeats he hok
  | store htodo ha => exact hI.store htodo

/-! ### The program's steps -/

/-- An event that is no reason for anything. -/
theorem Unpublished.published (hu : h.Unpublished m) (hreturned : h.returned = signalNone)
    (hrejects : h.soft.rejects = h.prev.rejects) : h.Published m := by
  refine ⟨?_, fun hne => absurd hreturned hne, ?_⟩
  · rw [if_pos hreturned]
    exact hu.signals.trans (BitVec.add_zero _).symm
  · rw [if_pos hrejects]
    exact hu.rejects.trans (BitVec.add_zero _).symm

/-- **A fill** is applied to the position. -/
theorem Filling.apply {bought : Bool} {r : Regs} (hf : h.Filling r m bought)
    (hok : (MarketEvent.fill bought).Faithful h.prev) :
    h.New { r with position := if bought then r.position + 1 else r.position - 1 } m := by
  obtain ⟨hbusy, hevent, hanchor, hposition, htick, hfill⟩ := hf
  have hone : (1 : Word).toInt = 1 := by decide
  have hsoft : h.soft = { h.prev with
      position := if bought then h.prev.position + 1 else h.prev.position - 1 } := by
    rw [soft, hevent]
    cases bought <;> rfl
  have hmove : (if bought then r.position + 1 else r.position - 1 : Word).toInt =
      if bought then h.prev.position + 1 else h.prev.position - 1 := by
    have hlo := BitVec.le_toInt r.position
    have hhi := BitVec.toInt_lt (x := r.position)
    cases bought with
    | true =>
      have hroom : h.prev.position + 1 < 2 ^ 31 := hok
      rw [if_pos rfl, if_pos rfl, BitVec.toInt_add, hone, hposition]
      exact Int.bmod_eq_of_le (by omega) (by omega)
    | false =>
      have hroom : -2 ^ 31 ≤ h.prev.position - 1 := hok
      rw [if_neg (by decide), if_neg (by decide), BitVec.toInt_sub, hone, hposition]
      exact Int.bmod_eq_of_le (by omega) (by omega)
  refine ⟨hbusy.todo, ⟨?_, ?_, htick, hfill⟩, fun _ => hbusy.outputs.published ?_ ?_⟩
  · rw [hsoft]
    exact hanchor
  · rw [hsoft]
    exact hmove
  · rw [returned, hevent]
    rfl
  · rw [hsoft]

/-- What the software makes of a quote. -/
theorem soft_of_quoted {bid ask : Word} (hq : h.Quoted bid ask) :
    h.soft = (h.prev.onQuote bid ask).2 ∧ h.returned = (h.prev.onQuote bid ask).1 := by
  obtain ⟨v, w, he⟩ := hq
  rw [soft, returned, he]
  exact ⟨rfl, rfl⟩

/-- An admissible quote has two sides, and its sum is positive. -/
theorem Quoted.sides {bid ask : Word} (hq : h.Quoted bid ask)
    (he : ∀ e, h.event = some e → e.Admissible ∧ e.Faithful h.prev) :
    bid ≠ 0 ∧ ask ≠ 0 ∧ (bid + ask).toNat = bid.toNat + ask.toNat ∧
      bid.toNat + ask.toNat < 2 ^ 31 := by
  obtain ⟨v, w, hevent⟩ := hq
  obtain ⟨⟨⟨hb1, hb2⟩, ha1, ha2⟩, -⟩ := he _ hevent
  rw [priceMax] at hb2 ha2
  refine ⟨?_, ?_, ?_, by omega⟩
  · rintro rfl
    exact absurd hb1 (by decide)
  · rintro rfl
    exact absurd ha1 (by decide)
  · rw [BitVec.toNat_add]
    omega

/-- A new quote moves the anchor of both. -/
theorem Quoted.moved {bid ask : Word} {r : Regs} (hq : h.Quoted bid ask)
    (he : ∀ e, h.event = some e → e.Admissible ∧ e.Faithful h.prev)
    (hposition : r.position.toInt = h.prev.position) (htick : r.tick = h.fpga.tickSeq)
    (hfill : r.fill = h.fpga.fillSeq) : h.Moved { r with anchor := bid + ask } := by
  obtain ⟨hb, ha, hsum, hlt⟩ := hq.sides he
  obtain ⟨hsoft, -⟩ := soft_of_quoted hq
  obtain ⟨hanchor, hpos⟩ := SoftStrategy.onQuote_moves (σ := h.prev) hb ha
  refine ⟨?_, ?_, htick, hfill⟩
  · change (bid + ask).toInt = _
    rw [hsoft, hanchor, BitVec.toInt_eq_toNat_of_lt (by omega), hsum]
    exact Int.natCast_add _ _
  · rw [hsoft, hpos]
    exact hposition

/-- **A quote is considered.** -/
theorem Reading.consider {r : Regs} {seq : Word} (hr : h.Reading r m seq)
    (hq : h.Quoted r.bid r.ask) (hs : Stored m h)
    (he : ∀ e, h.event = some e → e.Admissible ∧ e.Faithful h.prev) :
    Body (Strategy.consider .trading { r with tick := seq }) m h := by
  obtain ⟨hbusy, ⟨-, hregs, houtputs⟩, rfl⟩ := hr
  obtain ⟨hb, ha, hsum, hlt⟩ := hq.sides he
  obtain ⟨hsoft, hreturned⟩ := soft_of_quoted hq
  have hfill : r.fill = h.fpga.fillSeq := by
    obtain ⟨v, w, hevent⟩ := hq
    exact hregs.fill.trans ((stored_quote_iff hevent).mp hs).fill.1.symm
  simp only [Strategy.consider, if_neg hb, if_neg ha]
  -- both programs only take the first quote as their anchor, and both know it by a zero anchor
  by_cases h0 : r.anchor = 0
  · rw [if_pos h0]
    have hanchor : h.prev.anchor = 0 := by
      rw [← hregs.anchor, h0]
      rfl
    obtain ⟨hnone, hrejects⟩ := SoftStrategy.onQuote_first (b := r.bid) (a := r.ask) hanchor
    refine .inr ⟨hbusy.todo, hq.moved (r := { r with tick := h.fpga.tickSeq }) he hregs.position rfl
      hfill, fun _ => houtputs.published (hreturned.trans hnone) ?_⟩
    rw [hsoft]
    exact hrejects
  · rw [if_neg h0]
    refine ⟨hbusy, fun hzero => h0 ?_, ⟨hregs.anchor, hregs.position, rfl, hregs.fill⟩, rfl, _, _,
      hq, rfl⟩
    rw [← hregs.anchor] at hzero
    exact BitVec.eq_of_toInt_eq hzero

/-- The software wants to sell above the band. -/
theorem above_of_want {σ : SoftStrategy} {sum : Int} (h : σ.want sum = signalSell) :
    σ.anchor + 2 * σ.threshold.toNat < sum := by
  simp only [SoftStrategy.want] at h
  split_ifs at h with h₁ h₂
  · exact absurd h (by decide)
  · exact h₂
  · exact absurd h (by decide)

/-- **The position limit** is the same. -/
theorem allowed_iff_room {σ : SoftStrategy} {r : Regs} {side : Side}
    (hposition : r.position.toInt = σ.position)
    (hlimit : side = .sell → σ.maxPosition.toInt ≠ -2 ^ 31) :
    Strategy.allowed side r σ.maxPosition = true ↔ σ.Room side := by
  cases side with
  | buy => rw [Strategy.allowed, decide_eq_true_iff, SoftStrategy.Room, hposition]
  | sell =>
    have hlo := BitVec.le_toInt σ.maxPosition
    have hhi := BitVec.toInt_lt (x := σ.maxPosition)
    have hne := hlimit rfl
    have hneg : (0 - σ.maxPosition).toInt = -σ.maxPosition.toInt := by
      rw [BitVec.toInt_sub, show (0 : Word).toInt = 0 from by decide, Int.zero_sub]
      exact Int.bmod_eq_of_le (by omega) (by omega)
    rw [Strategy.allowed, decide_eq_true_iff, SoftStrategy.Room, hneg, hposition]

/-- **The band test.** -/
theorem body_bandTest {r : Regs} {bid ask : Word} (hbusy : h.Busy m) (hanchor : h.prev.anchor ≠ 0)
    (hbefore : h.Before { r with tick := h.oldTick }) (htick : r.tick = h.fpga.tickSeq)
    (hq : h.Quoted bid ask) (hc : Config m h) (hs : Stored m h)
    (he : ∀ e, h.event = some e → e.Admissible ∧ e.Faithful h.prev) :
    Body (Strategy.bandTest r (bid + ask) (m cfgThresh)) m h := by
  obtain ⟨hb, ha, hsum, hlt⟩ := hq.sides he
  obtain ⟨hsoft, hreturned⟩ := soft_of_quoted hq
  have hword : r.anchor.toInt = h.prev.anchor := hbefore.anchor
  have hcond := BitVec.toInt_eq_toNat_cond r.anchor
  have hsmall : r.anchor.toNat < 2 ^ 31 := by
    have hrange := hc.range.1
    split_ifs at hcond <;> omega
  have hnat : h.prev.anchor = r.anchor.toNat := by
    rw [← hword]
    exact BitVec.toInt_eq_toNat_of_lt (by omega)
  have hfill : r.fill = h.fpga.fillSeq := by
    obtain ⟨v, w, hevent⟩ := hq
    exact hbefore.fill.trans ((stored_quote_iff hevent).mp hs).fill.1.symm
  have hexact : BandExact h.prev.anchor (bid.toNat + ask.toNat) h.prev.threshold.toNat := by
    obtain ⟨v, w, hevent⟩ := hq
    exact ((he _ hevent).2 hanchor).1
  have hside : Side.word (bandSide r.anchor (bid + ask) h.prev.threshold) =
      h.prev.want (bid + ask).toNat := by
    refine (bandSide_eq_want_iff h.prev hsmall (by omega) hnat).mpr ?_
    rw [hsum, ← hnat]
    exact hexact
  rw [hsum, Int.natCast_add] at hside
  have hmoved : h.Moved { r with anchor := bid + ask } := hq.moved he hbefore.position htick hfill
  -- from here on the two decide the same, in 32 bits and over the integers
  rw [hc.thresh, Strategy.bandTest_eq]
  cases hband : bandSide r.anchor (bid + ask) h.prev.threshold with
  | none =>
    rw [hband] at hside
    obtain ⟨hnone, hrejects⟩ := SoftStrategy.onQuote_none hside.symm
    refine .inr ⟨hbusy.todo, hmoved, fun _ =>
      hbusy.outputs.published (hreturned.trans hnone) ?_⟩
    rw [hsoft]
    exact hrejects
  | some side =>
    rw [hband] at hside
    exact ⟨hbusy, hmoved, hanchor, bid, ask, hq, hside.symm⟩

/-- **The decision.** -/
theorem Wanting.decide {r : Regs} {side : Side} (hw : h.Wanting r m side) (hc : Config m h)
    (he : ∀ e, h.event = some e → e.Admissible ∧ e.Faithful h.prev) :
    if Strategy.allowed side r (m cfgMaxPos) = true then
      h.Emitting r m ∧ h.returned = side.signal
    else h.Rejecting r m := by
  obtain ⟨hbusy, hmoved, hanchor, bid, ask, hq, hwant⟩ := hw
  obtain ⟨hb, ha, -, -⟩ := hq.sides he
  obtain ⟨hsoft, hreturned⟩ := soft_of_quoted hq
  have hposition : r.position.toInt = h.prev.position := by
    rw [hmoved.position, hsoft]
    exact (SoftStrategy.onQuote_moves hb ha).2
  have hlimit : side = .sell → h.prev.maxPosition.toInt ≠ -2 ^ 31 := by
    rintro rfl
    obtain ⟨v, w, hevent⟩ := hq
    exact ((he _ hevent).2 hanchor).2 (above_of_want hwant)
  obtain ⟨hroom, hfull⟩ := SoftStrategy.onQuote_side hb ha hanchor hc.enabled hwant
  have hiff := allowed_iff_room hposition hlimit
  rw [hc.maxPos]
  split_ifs with hallowed
  · obtain ⟨hret, hrej⟩ := hroom (hiff.mp hallowed)
    have heq : h.returned = side.signal := hreturned.trans hret
    refine ⟨⟨hbusy, hmoved, ?_, ?_⟩, heq⟩
    · rw [heq]
      cases side <;> exact of_decide_eq_true rfl
    · rw [hsoft]
      exact hrej
  · obtain ⟨hret, hrej⟩ := hfull fun hr => hallowed (hiff.mpr hr)
    refine ⟨hbusy, hmoved, hreturned.trans hret, ?_⟩
    rw [hsoft]
    exact hrej

/-- The steps without an access. -/
theorem Inv.internal (hI : Inv t m h) (hnone : t.access .trading = none) :
    Inv (t.step .trading m) m h := by
  obtain ⟨hc, hs, he, hb⟩ := hI
  refine ⟨hc, hs, he, ?_⟩
  rw [Thread.step_none hnone]
  obtain ⟨point, r⟩ := t
  cases point with
  | loop => exact hb.imp (fun hold => ⟨⟨hold.1.event, ⟨hold.1.regs.anchor, hold.1.regs.position,
      hold.1.regs.tick, hold.1.regs.fill⟩, hold.1.outputs⟩, hold.2⟩) fun hnew =>
      ⟨hnew.todo, ⟨hnew.regs.anchor, hnew.regs.position, hnew.regs.tick, hnew.regs.fill⟩,
        hnew.outputs⟩
  | addFill bought qty =>
    obtain ⟨hf, rfl⟩ := hb
    exact ⟨hf.busy.beats, hf.apply (he _ hf.event).2⟩
  | commit seq => exact Reading.consider hb.1 hb.2 hs he
  | _ => cases hnone

section Access

variable {y : Access Addr Word} {m' : Addr → Word}

/-- An access is at most a heartbeat. -/
theorem observe_eq (h : Mirror) (y : Access Addr Word) :
    ∃ n, h.observe y = { h with beats := n } ∧ (h.todo ≠ [] → n = h.beats) := by
  cases y with
  | load a => exact ⟨h.beats, rfl, fun _ => rfl⟩
  | store a v =>
    simp only [observe]
    split_ifs with hbeat
    · exact ⟨h.beats + 1, rfl, fun hne => absurd hbeat.2 hne⟩
    · exact ⟨h.beats, rfl, fun _ => rfl⟩

/-- Any other access is not remembered. -/
theorem observe_of_ne (h : Mirror) (hy : ∀ v, y ≠ .store heartbeat v) : h.observe y = h := by
  cases y with
  | load a => rfl
  | store a v =>
    refine if_neg fun hbeat => ?_
    obtain ⟨rfl, -⟩ := hbeat
    exact hy v rfl

/-- What the host has stored stays. -/
theorem Stored.congr (hs : Stored m h)
    (hm : ∀ c, c < outputBase → c ≠ cfgRestart → m' c = m c) (n : ℕ) :
    Stored m' { h with beats := n } := by
  have htick := hm tickSeq (by decide) (by decide)
  have hfill := hm fillSeq (by decide) (by decide)
  by_cases hnone : h.event = none
  · simp only [Stored, hnone] at hs ⊢
    rw [htick, hfill, hm cfgPosition (by decide) (by decide)]
    exact hs
  · obtain ⟨e, he⟩ := Option.ne_none_iff_exists'.mp hnone
    cases e with
    | quote b w y z =>
      obtain ⟨h₁, h₂, k, hk, hdrop, hseq, hbid, hask⟩ := (stored_quote_iff he).mp hs
      refine (stored_quote_iff (h := { h with beats := n }) he).mpr
        ⟨h₁, ⟨h₂.1, hfill.trans h₂.2⟩, k, hk, hdrop, htick.trans hseq, fun hle => ?_, fun hle => ?_⟩
      · exact (hm Fmma.bid (by decide) (by decide)).trans (hbid hle)
      · exact (hm Fmma.ask (by decide) (by decide)).trans (hask hle)
    | fill bought =>
      obtain ⟨h₁, h₂, k, hk, hdrop, hseq, hside, hqty⟩ := (stored_fill_iff he).mp hs
      refine (stored_fill_iff (h := { h with beats := n }) he).mpr
        ⟨⟨h₁.1, htick.trans h₁.2⟩, h₂, k, hk, hdrop, hfill.trans hseq, fun hle => ?_, fun hle => ?_⟩
      · exact (hm fillSide (by decide) (by decide)).trans (hside hle)
      · exact (hm fillQty (by decide) (by decide)).trans (hqty hle)

/-- The configuration stays. -/
theorem Config.access (hc : Config m h) (hy : t.access .trading = some y) :
    Config (y.apply m) (h.observe y) := by
  have hkeep : ∀ c, c < outputBase → c ≠ cfgRestart → y.apply m c = m c :=
    fun c hlt hne => Strategy.apply_input hy hlt hne
  obtain ⟨n, hobs, hn⟩ := h.observe_eq y
  rw [hobs]
  refine ⟨(hkeep _ (by decide) (by decide)).trans hc.thresh,
    (hkeep _ (by decide) (by decide)).trans hc.maxPos,
    (hkeep _ (by decide) (by decide)).trans hc.enable,
    Strategy.apply_cfgRestart hy hc.restart, hc.enabled, hc.range, hc.even, fun hne => ?_⟩
  exact (hn hne).trans (hc.idle hne)

/-- **The start of a run**: `INIT` adopts what the software begins with. -/
theorem Body.access_booting (hb : Body t m h) (hs : Stored m h) (hboot : t.point.booting = true)
    (hy : t.access .trading = some y) : Body (t.step .trading m) (y.apply m) (h.observe y) := by
  have hnone : h.event = none := by
    obtain ⟨point, r⟩ := t
    cases point
    all_goals first
      | exact hb.1
      | cases hboot
  simp only [Stored, hnone] at hs
  obtain ⟨htodo, htick, hfill, hposition, hanchor, hzero⟩ := hs
  have hsoft : h.soft = h.prev := by
    rw [soft, hnone]
    rfl
  obtain ⟨point, r⟩ := t
  cases point with
  | initPosition =>
    cases hy
    obtain ⟨-, hbeats, h0, htick0⟩ := hb
    exact ⟨hnone, hbeats, h0, htick0, hposition⟩
  | initFill =>
    cases hy
    obtain ⟨-, hbeats, h0, htick0, hpos⟩ := hb
    refine ⟨hnone, hbeats, ?_, ?_, ?_, hfill⟩
    · change r.anchor.toInt = h.soft.anchor
      rw [hsoft, hanchor, show r.anchor = 0 from h0]
      rfl
    · change r.position.toInt = h.soft.position
      rw [hsoft]
      exact hpos
    · exact (show r.tick = 0 from htick0).trans hzero.symm
  | clear i =>
    cases hy
    rw [observe_of_ne h fun v heq => by
      injection heq with hc
      revert hc
      fin_cases i <;> decide]
    simp only [Thread.step, Thread.resume]
    split_ifs <;> exact hb
  | setStatus =>
    cases hy
    exact hb
  | setVersion =>
    cases hy
    obtain ⟨-, hbeats, hmoved⟩ := hb
    exact .inr ⟨htodo, hmoved, fun hne => absurd hnone hne⟩
  | _ => cases hboot

/-- What the two states are about, apart from the registers. -/
theorem Old.congr {r : Regs} (ho : h.Old r m) (hseq : m' signalSeq = m signalSeq)
    (hrejects : m' rejects = m rejects) (n : ℕ) : ({ h with beats := n } : Mirror).Old r m' :=
  ⟨ho.event, ⟨ho.regs.anchor, ho.regs.position, ho.regs.tick, ho.regs.fill⟩,
    hseq.trans ho.outputs.signals, hrejects.trans ho.outputs.rejects⟩

theorem New.congr {r : Regs} (hn : h.New r m)
    (hm : ∀ a ∈ [Fmma.signal, signalSeq, rejects], m' a = m a) (n : ℕ) :
    ({ h with beats := n } : Mirror).New r m' := by
  refine ⟨hn.todo, ⟨hn.regs.anchor, hn.regs.position, hn.regs.tick, hn.regs.fill⟩, fun he => ?_⟩
  obtain ⟨hsignals, hside, hrejects⟩ := hn.outputs he
  exact ⟨(hm _ (by decide)).trans hsignals, fun hne => (hm _ (by decide)).trans (hside hne),
    (hm _ (by decide)).trans hrejects⟩

/-- **The mailbox**: a new counter is that of a fill under way. -/
theorem Old.fill {r : Regs} (ho : h.Old r m) (hbeats : h.beats ≤ 1) (hs : Stored m h)
    (hc : Config m h) : Body (Thread.resume .trading ⟨.fillSeq, r⟩ (m fillSeq)) m h := by
  obtain ⟨e, he⟩ := Option.ne_none_iff_exists'.mp ho.event
  simp only [Thread.resume]
  cases e with
  | quote b w y z =>
    obtain ⟨-, hfill, -⟩ := (stored_quote_iff he).mp hs
    rw [if_pos (hfill.2.trans ho.regs.fill.symm)]
    exact .inl ⟨ho, .inr ⟨hbeats, b, w, y, z, he⟩⟩
  | fill bought =>
    obtain ⟨htick, hfill, k, hk, hdrop, hseq, -⟩ := (stored_fill_iff he).mp hs
    split_ifs with hold
    -- an old counter: the report is not through, or it would be the new one
    · refine .inl ⟨ho, .inl (hc.idle fun hnil => ?_)⟩
      obtain ⟨-, hcount⟩ := hs.done hnil
      rw [hcount, hfill, ho.regs.fill] at hold
      exact absurd hold (by simp)
    · have hlast : k = 3 := by
        by_contra hne
        rw [if_pos (by omega)] at hseq
        exact hold ((hseq.trans (BitVec.add_zero _)).trans ho.regs.fill.symm)
      subst hlast
      refine ⟨bought, ⟨hdrop, hbeats, ho.outputs⟩, he, ho.regs.anchor, ho.regs.position, ?_, ?_⟩
      · exact ho.regs.tick.trans htick.1.symm
      · exact hseq.trans hfill.symm

/-- **The tick counter**: a new even value is that of a quote under way. -/
theorem Old.tick {r : Regs} (ho : h.Old r m)
    (hbeats : h.beats = 0 ∨ h.beats ≤ 1 ∧ ∃ bid ask, h.Quoted bid ask) (hs : Stored m h)
    (hc : Config m h) : Body (Thread.resume .trading ⟨.tickSeq, r⟩ (m tickSeq)) m h := by
  obtain ⟨e, he⟩ := Option.ne_none_iff_exists'.mp ho.event
  have hle : h.beats ≤ 1 := by
    rcases hbeats with h0 | ⟨h1, -⟩
    · omega
    · exact h1
  simp only [Thread.resume]
  cases e with
  | fill bought =>
    obtain ⟨htick, -⟩ := (stored_fill_iff he).mp hs
    rw [if_pos (htick.2.trans ho.regs.tick.symm)]
    refine .inl ⟨ho, hbeats.resolve_right ?_⟩
    rintro ⟨-, b, w, y, z, hquote⟩
    rw [he] at hquote
    cases hquote
  | quote b w y z =>
    obtain ⟨htick, -, k, hk, hdrop, hseq, -⟩ := (stored_quote_iff he).mp hs
    have heven : h.oldTick &&& 1 = 0 := by
      have := hc.even
      rw [htick, and_one_eq_zero_iff, BitVec.toNat_add] at this
      rw [and_one_eq_zero_iff]
      change (h.oldTick.toNat + 2) % 2 ^ 32 % 2 = 0 at this
      omega
    have hidle : k < 6 → h.beats = 0 := fun hlt => hc.idle fun hnil =>
      absurd (eq_length_of_drop hk hnil hdrop) hlt.ne
    -- the old counter, a new even one, or the odd one of a publish that is under way
    split_ifs with hold hodd
    · refine .inl ⟨ho, hidle ?_⟩
      by_contra hge
      rw [hold, ho.regs.tick, if_neg (by omega), if_neg (by omega)] at hseq
      exact absurd hseq (by simp)
    · have hlast : k = 6 := by
        by_contra hne
        by_cases h0 : k = 0
        · rw [if_pos h0] at hseq
          exact hold ((hseq.trans (BitVec.add_zero _)).trans ho.regs.tick.symm)
        · rw [if_neg h0, if_pos (by omega)] at hseq
          rw [hseq] at hodd
          rw [and_one_eq_zero_iff, BitVec.toNat_add] at hodd
          rw [and_one_eq_zero_iff] at heven
          change (h.oldTick.toNat + 1) % 2 ^ 32 % 2 = 0 at hodd
          omega
      subst hlast
      refine ⟨⟨⟨hdrop, hle, ho.outputs⟩, ho, hseq.trans htick.symm⟩, b, w, y, z, he⟩
    · refine .inl ⟨ho, hidle ?_⟩
      by_contra hge
      rw [if_neg (by omega), if_neg (by omega)] at hseq
      rw [hseq] at hodd
      exact hodd (even_add_two heven)

/-- **The seqlock read** finds the quote. -/
theorem Quoted.read {b w : Word} (hq : h.Quoted b w) (hs : Stored m h) (htodo : h.todo = []) :
    m bid = b ∧ m ask = w := by
  obtain ⟨y, z, he⟩ := hq
  exact (Quoting.done ((stored_quote_iff he).mp hs) htodo).2

/-- Reading a price changes nothing else. -/
theorem Reading.read {r : Regs} {seq : Word} (hr : h.Reading r m seq) (b w : Word) :
    h.Reading { r with bid := b, ask := w } m seq :=
  ⟨hr.busy, ⟨hr.old.event, ⟨hr.old.regs.anchor, hr.old.regs.position, hr.old.regs.tick,
    hr.old.regs.fill⟩, hr.old.outputs⟩, hr.seq⟩

/-- Nothing is published before the last store. -/
theorem Busy.congr (hb : h.Busy m) (hseq : m' signalSeq = m signalSeq)
    (hrejects : m' rejects = m rejects) : h.Busy m' :=
  ⟨hb.todo, hb.beats, hseq.trans hb.outputs.signals, hrejects.trans hb.outputs.rejects⟩

theorem Emitting.congr {r : Regs} (hb : h.Emitting r m) (hseq : m' signalSeq = m signalSeq)
    (hrejects : m' Fmma.rejects = m Fmma.rejects) : h.Emitting r m' :=
  ⟨hb.busy.congr hseq hrejects, hb.moved, hb.returned, hb.rejects⟩

theorem Rejecting.congr {r : Regs} (hb : h.Rejecting r m) (hseq : m' signalSeq = m signalSeq)
    (hrejects : m' Fmma.rejects = m Fmma.rejects) : h.Rejecting r m' :=
  ⟨hb.busy.congr hseq hrejects, hb.moved, hb.returned, hb.rejects⟩

/-- **The accesses of the program** keep the invariant. -/
theorem Body.access (hb : Body t m h) (hs : Stored m h) (hc : Config m h)
    (he : ∀ e, h.event = some e → e.Admissible ∧ e.Faithful h.prev)
    (hy : t.access .trading = some y) : Body (t.step .trading m) (y.apply m) (h.observe y) := by
  by_cases hboot : t.point.booting = true
  · exact hb.access_booting hs hboot hy
  obtain ⟨point, r⟩ := t
  cases point with
  | beat =>
    -- an event that has not been looked at has seen one beat at most
    cases hy
    have hkeep : ∀ a, a ≠ heartbeat → Function.update m heartbeat r.beat a = m a :=
      fun a ha => Function.update_of_ne ha r.beat m
    have hobs : h.observe (.store heartbeat r.beat) =
        { h with beats := if h.todo = [] then h.beats + 1 else h.beats } := by
      simp only [observe, true_and]
      split_ifs <;> rfl
    change Body ⟨.restart, r⟩ (Function.update m heartbeat r.beat)
      (h.observe (.store heartbeat r.beat))
    rw [hobs]
    refine hb.imp (fun hold => ⟨hold.1.congr (hkeep _ (by decide)) (hkeep _ (by decide)) _, ?_⟩)
      fun hnew => hnew.congr (fun a ha => hkeep a ?_) _
    · change (if h.todo = [] then h.beats + 1 else h.beats) ≤ 1
      have h0 : h.beats = 0 := hold.2
      split_ifs <;> omega
    · rintro rfl
      exact absurd ha (by decide)
  | restart =>
    cases hy
    have hstep : Thread.step .trading ⟨.restart, r⟩ m = ⟨.fillSeq, r⟩ := if_pos hc.restart
    rw [hstep]
    exact hb
  | fillSeq =>
    cases hy
    rw [Thread.step_load rfl]
    rcases hb with ⟨hold, hbeats⟩ | hnew
    · exact hold.fill hbeats hs hc
    · have hseq : m fillSeq = r.fill := (hs.done hnew.todo).2.trans hnew.regs.fill.symm
      have hstep : Thread.resume .trading ⟨.fillSeq, r⟩ (m fillSeq) = ⟨.tickSeq, r⟩ := if_pos hseq
      rw [hstep]
      exact .inr hnew
  | fillSide =>
    cases hy
    obtain ⟨bought, hf⟩ := hb
    obtain ⟨-, hside, -⟩ := Reporting.done ((stored_fill_iff hf.event).mp hs) hf.busy.todo
    exact ⟨bought, ⟨hf.busy, hf.event, hf.anchor, hf.position, hf.tick, hf.fill⟩, hside⟩
  | fillQty side =>
    cases hy
    obtain ⟨bought, hf, rfl⟩ := hb
    obtain ⟨-, -, hqty⟩ := Reporting.done ((stored_fill_iff hf.event).mp hs) hf.busy.todo
    have hstep : Thread.step .trading ⟨.fillQty (MarketEvent.side bought), r⟩ m =
        ⟨.addFill bought (m fillQty), r⟩ := by
      cases bought <;> rfl
    rw [hstep]
    exact ⟨hf, hqty⟩
  | storePosition =>
    cases hy
    refine .inr (hb.2.congr (fun a ha => ?_) h.beats)
    have hne : a ≠ Fmma.position := by
      rintro rfl
      exact absurd ha (by decide)
    exact Function.update_of_ne hne r.position m
  | tickSeq =>
    cases hy
    rw [Thread.step_load rfl]
    rcases hb with ⟨hold, hbeats⟩ | hnew
    · exact hold.tick hbeats hs hc
    · have hseq : m tickSeq = r.tick := (hs.done hnew.todo).1.trans hnew.regs.tick.symm
      have hstep : Thread.resume .trading ⟨.tickSeq, r⟩ (m tickSeq) = ⟨.loop, r⟩ := if_pos hseq
      rw [hstep]
      exact .inr hnew
  | bid seq =>
    cases hy
    obtain ⟨hr, b, w, hq⟩ := hb
    obtain ⟨rfl, -⟩ := hq.read hs hr.busy.todo
    exact ⟨hr.read (m bid) r.ask, w, hq⟩
  | ask seq =>
    cases hy
    obtain ⟨hr, w, hq⟩ := hb
    obtain ⟨-, rfl⟩ := hq.read hs hr.busy.todo
    exact ⟨hr.read r.bid (m ask), hq⟩
  | tickSeq2 seq =>
    cases hy
    have hseq : m tickSeq = seq := (hs.done hb.1.busy.todo).1.trans hb.1.seq.symm
    have hstep : Thread.step .trading ⟨.tickSeq2 seq, r⟩ m = ⟨.commit seq, r⟩ := if_pos hseq
    rw [hstep]
    exact hb
  | thresh sum =>
    cases hy
    obtain ⟨hbusy, hanchor, hbefore, htick, b, w, hq, rfl⟩ := hb
    rw [Thread.step_load rfl]
    exact body_bandTest hbusy hanchor hbefore htick hq hc hs he
  | enable side =>
    cases hy
    have hen : m cfgEnable ≠ 0 := by
      rw [hc.enable]
      decide
    have hstep : Thread.step .trading ⟨.enable side, r⟩ m = ⟨.maxPos side, r⟩ := if_neg hen
    rw [hstep]
    exact hb
  | maxPos side =>
    cases hy
    have hdecide := hb.decide hc he
    rw [Thread.step_load rfl]
    simp only [Thread.resume]
    split_ifs at hdecide ⊢
    · exact hdecide
    · exact hdecide
  | signal side =>
    cases hy
    obtain ⟨hemit, hret⟩ := hb
    have hkeep : ∀ a, a ≠ Fmma.signal → Function.update m Fmma.signal side.signal a = m a :=
      fun a ha => Function.update_of_ne ha side.signal m
    refine ⟨hemit.congr (hkeep _ (by decide)) (hkeep _ (by decide)), ?_⟩
    exact (Function.update_self Fmma.signal side.signal m).trans hret.symm
  | signalTick =>
    cases hy
    obtain ⟨hemit, hside⟩ := hb
    have hkeep : ∀ a, a ≠ Fmma.signalTick → Function.update m Fmma.signalTick r.tick a = m a :=
      fun a ha => Function.update_of_ne ha r.tick m
    exact ⟨hemit.congr (hkeep _ (by decide)) (hkeep _ (by decide)),
      (hkeep _ (by decide)).trans hside⟩
  | status =>
    cases hy
    obtain ⟨hemit, hside⟩ := hb
    have hkeep : ∀ a, a ≠ Fmma.status → Function.update m Fmma.status statusRunning a = m a :=
      fun a ha => Function.update_of_ne ha statusRunning m
    exact ⟨hemit.congr (hkeep _ (by decide)) (hkeep _ (by decide)),
      (hkeep _ (by decide)).trans hside⟩
  | signalSeq =>
    cases hy
    obtain ⟨hemit, hside⟩ := hb
    exact ⟨hemit, hside, congrArg (· + 1) hemit.busy.outputs.signals⟩
  | signalSeqStore v =>
    -- the signal is out: the strategy has returned one, and nothing has been rejected
    cases hy
    obtain ⟨hemit, hside, rfl⟩ := hb
    refine .inr ⟨hemit.busy.todo, hemit.moved, fun _ => ⟨?_, fun _ => ?_, ?_⟩⟩
    · refine (Function.update_self Fmma.signalSeq _ m).trans ?_
      rw [observe_of_ne h (by rintro v ⟨⟩), if_neg hemit.returned]
    · exact (Function.update_of_ne (by decide) _ m).trans hside
    · rw [observe_of_ne h (by rintro v ⟨⟩), if_pos hemit.rejects]
      refine (Function.update_of_ne (by decide) _ m).trans ?_
      exact hemit.busy.outputs.rejects.trans (BitVec.add_zero _).symm
  | rejectStatus v =>
    cases hy
    have hkeep : ∀ a, a ≠ Fmma.status → Function.update m Fmma.status v a = m a :=
      fun a ha => Function.update_of_ne ha v m
    exact hb.congr (hkeep _ (by decide)) (hkeep _ (by decide))
  | rejects =>
    cases hy
    exact ⟨hb, congrArg (· + 1) hb.busy.outputs.rejects⟩
  | rejectsStore v =>
    -- the decision is rejected: the strategy has returned none, and has counted it
    cases hy
    obtain ⟨hreject, rfl⟩ := hb
    refine .inr ⟨hreject.busy.todo, hreject.moved, fun _ => ⟨?_, fun hne => ?_, ?_⟩⟩
    · rw [observe_of_ne h (by rintro v ⟨⟩), if_pos hreject.returned]
      refine (Function.update_of_ne (by decide) _ m).trans ?_
      exact hreject.busy.outputs.signals.trans (BitVec.add_zero _).symm
    · exact absurd hreject.returned hne
    · refine (Function.update_self Fmma.rejects _ m).trans ?_
      rw [observe_of_ne h (by rintro v ⟨⟩), if_neg (by rw [hreject.rejects]; omega)]
  | initPosition => exact absurd rfl hboot
  | initFill => exact absurd rfl hboot
  | clear i => exact absurd rfl hboot
  | setStatus => exact absurd rfl hboot
  | setVersion => exact absurd rfl hboot
  | loop => cases hy
  | addFill bought qty => cases hy
  | commit seq => cases hy
  | _ => exact hb.elim

theorem Inv.access (hI : Inv t m h) (hy : t.access .trading = some y) :
    Inv (t.step .trading m) (y.apply m) (h.observe y) := by
  obtain ⟨hc, hs, he, hb⟩ := hI
  obtain ⟨n, hobs, -⟩ := h.observe_eq y
  refine ⟨hc.access hy, ?_, ?_, hb.access hs hc he hy⟩
  · rw [hobs]
    exact hs.congr (fun c hlt hne => Strategy.apply_input hy hlt hne) n
  · rw [hobs]
    exact he

end Access

/-- The two begin alike. -/
theorem Starts.inv (hs : Starts m h) (r : Regs) : Inv (Thread.initial .trading r) m h := by
  obtain ⟨hprev, henable, hrestart, ⟨htick, htick0⟩, hfill, hevent, htodo, hbeats⟩ := hs
  have hanchor : h.prev.anchor = 0 := by
    rw [hprev]
    rfl
  refine ⟨⟨by rw [hprev]; rfl, by rw [hprev]; rfl, henable, hrestart, by rw [hprev]; rfl, ?_, ?_,
    fun hne => absurd htodo hne⟩, ?_, ?_, hevent, hbeats, rfl, rfl⟩
  · rw [hanchor]
    omega
  · rw [htick0]
    rfl
  · simp only [Stored, hevent]
    refine ⟨htodo, htick.trans htick0.symm, hfill.symm, ?_, hanchor, htick0⟩
    rw [hprev]
    rfl
  · rw [hevent]
    rintro e ⟨⟩

end Mirror

/-! ### One strategy -/

/-- **The software and the fabric are one strategy**, in every run whose events are all faithful:
when the program is back at `LOOP` after an event, `R9` and `R13` are the anchor and the position of
the software, and the output words have changed as the software has returned. -/
theorem same_strategy {c : Cpu} {h : Mirror}
    (hr : cpuMachine.Reachable (mirror fun σ e => e.Faithful σ) (boot .trading Mirror.Starts)
      (c, h)) (hpc : c.pc = Strategy.trading.loopAt) (hbeats : 2 ≤ h.beats)
    (hevent : h.event ≠ none) :
    (c.regs 9).toInt = h.soft.anchor ∧ (c.regs 13).toInt = h.soft.position ∧ h.Published c.mem := by
  obtain ⟨t, hsim, -, hI⟩ := board_invariant .trading (mirror_onlyShared _)
    (I := fun t m h => Mirror.Inv t m h) (fun r m h hs => hs.inv r)
    (fun t m h hI hnone => hI.internal hnone)
    (fun t m h x hI hx _ => hI.access hx)
    (fun t m h x h' hI hx => hI.act hx)
    (fun t m h h' r _ hreset => hreset.elim) hr
  obtain ⟨hnew, -⟩ := hI.body.settled hbeats
  have hcorr := hsim.corr (hpc ▸ (by decide +kernel : Strategy.trading.visible _ = true))
  obtain ⟨-, -, hanchor, -, -, hposition, -⟩ := hcorr.live
  refine ⟨?_, ?_, hnew.outputs hevent⟩
  · rw [hanchor]
    exact hnew.regs.anchor
  · rw [hposition]
    exact hnew.regs.position

/-! ### Concrete runs -/

instance (anchor sum : Int) (threshold : ℕ) : Decidable (BandExact anchor sum threshold) := by
  unfold BandExact
  infer_instance

instance : DecidablePred MarketEvent.Admissible
  | .quote _ _ _ _ => inferInstanceAs (Decidable (_ ∧ _))
  | .fill _ => .isTrue trivial

instance (σ : SoftStrategy) : DecidablePred (MarketEvent.Faithful σ)
  | .quote _ _ _ _ => inferInstanceAs (Decidable (_ → _))
  | .fill true => inferInstanceAs (Decidable (_ < _))
  | .fill false => inferInstanceAs (Decidable (_ ≤ _))

/-- What the host can be told to do. -/
inductive MirrorCommand
  | event (e : MarketEvent)
  | store

/-- What it does then, if it can. -/
def MirrorCommand.perform (ok : SoftStrategy → MarketEvent → Prop) [∀ σ e, Decidable (ok σ e)]
    (h : Mirror) (m : Addr → Word) : MirrorCommand → Option (Option (Access Addr Word) × Mirror)
  | .event e =>
    if h.todo = [] ∧ 2 ≤ h.beats ∧ e.Admissible ∧ ok h.soft e then some (none, h.begin e m)
    else none
  | .store =>
    match h.todo with
    | [] => none
    | (a, v) :: rest =>
      if inputBase ≤ a then some (some (.store a v), { h with todo := rest }) else none

/-- Scripts for the host. -/
def mirrorDirector (ok : SoftStrategy → MarketEvent → Prop) [∀ σ e, Decidable (ok σ e)] :
    Director .trading (mirror ok) MirrorCommand where
  perform k h m := k.perform ok h m
  ok _ := true
  perform_act {k h m x h'} hk := by
    cases k with
    | event e =>
      simp only [MirrorCommand.perform] at hk
      split_ifs at hk with hcan
      cases hk
      exact .event e hcan.1 hcan.2.1 hcan.2.2.1 hcan.2.2.2
    | store =>
      simp only [MirrorCommand.perform] at hk
      split at hk
      · cases hk
      · next a v rest htodo =>
        split_ifs at hk with hle
        cases hk
        exact .store htodo hle
  ok_permitted _ _ _ := trivial

/-- A quote, with the time the program takes for it. -/
def MirrorCommand.quote (bid ask : Word) : List (Line MirrorCommand) :=
  .host (.event (.quote bid ask 0 0)) :: List.replicate 6 (.host .store)

/-- A RAM with a threshold of one, a limit of five lots and trading enabled. -/
def oneTick (a : Addr) : Word :=
  if a = cfgThresh then 1 else if a = cfgMaxPos then 5 else if a = cfgEnable then 1 else 0

/-- A host before the first event. -/
def Mirror.cold : Mirror := ⟨⟨0, 0, 0⟩, [], none, .init 1 5 0, 0, 0, 0, 0, 0⟩

theorem Mirror.starts_cold : Mirror.Starts (Strategy.install .trading oneTick) Mirror.cold := by
  constructor <;> simp [Mirror.cold, oneTick]

/-- Two quotes; the software and the fabric buy at the second. -/
theorem same_strategy_buy : ∃ (c : Cpu) (h : Mirror), h.returned = signalBuy ∧
    (c.regs 9).toInt = h.soft.anchor ∧ (c.regs 13).toInt = h.soft.position ∧
      h.Published c.mem := by
  obtain ⟨t, c, h, hr, hcorr, hP⟩ := (mirrorDirector fun σ e => e.Faithful σ).exists_reachable
    (mirror_onlyShared _) (fun _ _ h => h) Mirror.Starts (m := oneTick) Mirror.starts_cold
    ([.cpu 26] ++ MirrorCommand.quote 100 100 ++ [.cpu 14] ++ MirrorCommand.quote 90 90 ++
      [.cpu 22])
    (P := fun a => a.1.1.point = .loop ∧ 2 ≤ a.2.beats ∧ a.2.event = some (.quote 90 90 0 0) ∧
      a.2.returned = signalBuy)
    (by decide +kernel)
  obtain ⟨hpoint, hbeats, hevent, hreturned⟩ := of_decide_eq_true hP
  change h.event = _ at hevent
  have hpc : c.pc = Strategy.trading.loopAt := by
    rw [hcorr.pc, hpoint]
    rfl
  refine ⟨c, h, hreturned, same_strategy hr hpc hbeats ?_⟩
  rw [hevent]
  exact Option.some_ne_none _

/-- **A decision of the fabric alone.** Two quotes at `FMMA_PRICE_MAX`, with a threshold of one: the
upper end of the band wraps around, and the fabric sells. -/
theorem not_same_strategy : ¬∀ (c : Cpu) (h : Mirror),
    cpuMachine.Reachable (mirror fun _ _ => True) (boot .trading Mirror.Starts) (c, h) →
      c.pc = Strategy.trading.loopAt → 2 ≤ h.beats → h.event ≠ none →
        (c.regs 9).toInt = h.soft.anchor ∧ (c.regs 13).toInt = h.soft.position ∧
          h.Published c.mem := by
  intro hall
  obtain ⟨t, c, h, hr, hcorr, hP⟩ := (mirrorDirector fun _ _ => True).exists_reachable
    (mirror_onlyShared _) (fun _ _ h => h) Mirror.Starts (m := oneTick) Mirror.starts_cold
    ([.cpu 26] ++ MirrorCommand.quote 0x3FFFFFFF 0x3FFFFFFF ++ [.cpu 14] ++
      MirrorCommand.quote 0x3FFFFFFF 0x3FFFFFFF ++ [.cpu 22])
    (P := fun a => a.1.1.point = .loop ∧ 2 ≤ a.2.beats ∧ a.2.event.isSome ∧
      a.2.returned = signalNone ∧ a.2.oldSignals = 0 ∧ a.1.2 signalSeq = 1)
    (by decide +kernel)
  obtain ⟨hpoint, hbeats, hevent, hreturned, hold, hseq⟩ := of_decide_eq_true hP
  change h.event.isSome at hevent
  change h.returned = _ at hreturned
  change h.oldSignals = _ at hold
  change c.mem signalSeq = _ at hseq
  have hpc : c.pc = Strategy.trading.loopAt := by
    rw [hcorr.pc, hpoint]
    rfl
  obtain ⟨-, -, hpublished⟩ := hall c h hr hpc hbeats (Option.isSome_iff_ne_none.mp hevent)
  have hsignals := hpublished.signals
  rw [hseq, hold, if_pos hreturned] at hsignals
  exact absurd hsignals (by decide)

end Fmma
