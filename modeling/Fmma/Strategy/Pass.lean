import Fmma.Strategy.Thread

/-!
# One pass of `trading.asm`

What a pass of the main loop is to do, as a function of the registers that live across passes and of
the RAM (`Pass.run`), and that the strategy does it between one `LOOP` and the next one, or the
restart, when nobody else stores to the RAM.
-/

namespace Fmma

/-- The registers that live across passes: R9 and R11 to R14. -/
@[ext]
structure Kept where
  anchor : Word
  tick : Word
  beat : Word
  position : Word
  fill : Word

/-- What a pass works on. -/
structure Pass where
  kept : Kept
  mem : Addr → Word

namespace Pass

/-! ### The reference -/

/-- A word is stored. -/
def store (a : Pass) (x : Addr) (v : Word) : Pass := { a with mem := Function.update a.mem x v }

/-- The heartbeat. -/
def beats (a : Pass) : Pass :=
  store { a with kept := { a.kept with beat := a.kept.beat + 1 } } heartbeat (a.kept.beat + 1)

/-- A fill that has been reported is applied, and the position is published. -/
def mailbox (a : Pass) : Pass :=
  if a.mem fillSeq = a.kept.fill then a
  else
    let holds :=
      if a.mem fillSide = fillBought then a.kept.position + a.mem fillQty
      else a.kept.position - a.mem fillQty
    store { a with kept := { a.kept with position := holds, fill := a.mem fillSeq } } position holds

/-- A decision is suppressed and counted. -/
def reject (a : Pass) (cause : Word) : Pass :=
  (a.store status (cause + statusRunning)).store rejects (a.mem rejects + 1)

/-- A decision is published, its number last. -/
def publish (a : Pass) (side : Side) : Pass :=
  (((a.store signal side.signal).store signalTick a.kept.tick).store status statusRunning).store
    signalSeq (a.mem signalSeq + 1)

/-- The position limit. -/
def HasRoom (a : Pass) : Side → Prop
  | .buy => a.kept.position.toInt < (a.mem cfgMaxPos).toInt
  | .sell => (-a.mem cfgMaxPos).toInt < a.kept.position.toInt

instance (a : Pass) : DecidablePred a.HasRoom
  | .buy => inferInstanceAs (Decidable (_ < _))
  | .sell => inferInstanceAs (Decidable (_ < _))

/-- A decision: the switch comes before the position limit. -/
def decision (a : Pass) (side : Side) : Pass :=
  if a.mem cfgEnable = 0 then a.reject statusDisabled
  else if a.HasRoom side then a.publish side
  else a.reject statusRiskBlocked

/-- A two-sided quote becomes the anchor, and is compared with the old one. -/
def quote (a : Pass) : Pass :=
  let sum := a.mem bid + a.mem ask
  let band := a.mem cfgThresh + a.mem cfgThresh
  let anchored := { a with kept := { a.kept with anchor := sum } }
  if a.kept.anchor = 0 then anchored
  else if sum.toInt < (a.kept.anchor - band).toInt then anchored.decision .buy
  else if (a.kept.anchor + band).toInt < sum.toInt then anchored.decision .sell
  else anchored

/-- A new tick is consumed, unless its counter is odd. -/
def quotes (a : Pass) : Pass :=
  if a.mem tickSeq = a.kept.tick ∨ a.mem tickSeq &&& 1 ≠ 0 then a
  else
    let a := { a with kept := { a.kept with tick := a.mem tickSeq } }
    if a.mem bid = 0 ∨ a.mem ask = 0 then a else a.quote

/-- A restart has been requested. -/
def Restarts (a : Pass) : Prop := a.mem cfgRestart ≠ 0

instance (a : Pass) : Decidable a.Restarts := inferInstanceAs (Decidable (_ ≠ _))

/-- **The reference**: what a pass makes of the registers and the RAM. -/
def run (a : Pass) : Pass :=
  if a.Restarts then a.beats.store cfgRestart 0 else a.beats.mailbox.quotes

end Pass

/-! ### The strategy -/

/-- The registers that live across passes. -/
def Regs.kept (r : Regs) : Kept := ⟨r.anchor, r.tick, r.beat, r.position, r.fill⟩

/-- A pass ends where the next one begins, or where the request of a restart is cleared. -/
def Point.ends : Point → Bool
  | .loop => true
  | .clearRestart => true
  | _ => false

namespace Thread

variable {s : Strategy} {p : Point} {b : Pass} {t : Thread} {m : Addr → Word} {x : Addr} {v : Word}

/-- On its own the strategy ends its pass at `p`, with registers and RAM as in `b`. -/
inductive Lands (s : Strategy) (p : Point) (b : Pass) : Thread → (Addr → Word) → Prop
  | here {r : Regs} {m : Addr → Word} (hkept : r.kept = b.kept) (hmem : m = b.mem) :
    Lands s p b ⟨p, r⟩ m
  | step {t : Thread} {m : Addr → Word} (hends : t.point.ends = false)
    (hnext : Lands s p b (t.step s m) (Access.applyOpt m (t.access s))) : Lands s p b t m

/-- It loads. -/
theorem Lands.load (hx : t.access s = some (.load x)) (hends : t.point.ends = false)
    (hnext : Lands s p b (t.resume s (m x)) m) : Lands s p b t m := by
  refine .step hends ?_
  rw [step_load hx, hx]
  exact hnext

/-- It stores. -/
theorem Lands.store (hx : t.access s = some (.store x v)) (hends : t.point.ends = false)
    (hnext : Lands s p b (t.resume s (m x)) (Function.update m x v)) : Lands s p b t m := by
  refine .step hends ?_
  rw [step_store hx, hx]
  exact hnext

/-- It makes no access. -/
theorem Lands.quiet (hx : t.access s = none) (hends : t.point.ends = false)
    (hnext : Lands s p b (t.resume s 0) m) : Lands s p b t m := by
  refine .step hends ?_
  rw [step_none hx, hx]
  exact hnext

variable {r : Regs} {side : Side}

/-- `COUNT_REJECT`. -/
theorem lands_reject (cause : Word) :
    Lands s .loop (Pass.reject ⟨r.kept, m⟩ cause) ⟨.rejectStatus (cause + statusRunning), r⟩ m := by
  refine .store rfl rfl (.load rfl rfl (.store rfl rfl ?_))
  have hrejects : Function.update m status (cause + statusRunning) rejects = m rejects :=
    Function.update_of_ne (by decide) _ m
  rw [hrejects]
  exact .here rfl rfl

/-- `EMIT`. -/
theorem lands_publish :
    Lands s .loop (Pass.publish ⟨r.kept, m⟩ side) ⟨.signal side, r⟩ m := by
  refine .store rfl rfl (.store rfl rfl (.store rfl rfl (.load rfl rfl (.store rfl rfl ?_))))
  have hseq (m' : Addr → Word) (y : Addr) (v : Word) (hy : signalSeq ≠ y) :
      Function.update m' y v signalSeq = m' signalSeq := Function.update_of_ne hy v m'
  rw [hseq _ status _ (by decide), hseq _ signalTick _ (by decide), hseq _ signal _ (by decide)]
  exact .here rfl rfl

/-- The limit as the program compares it. -/
theorem allowed_eq :
    Strategy.allowed side r (m cfgMaxPos) = decide (Pass.HasRoom ⟨r.kept, m⟩ side) := by
  cases side with
  | buy => rfl
  | sell =>
    have hneg : 0 - m cfgMaxPos = -m cfgMaxPos := BitVec.zero_sub (m cfgMaxPos)
    rw [Strategy.allowed, hneg]
    rfl

/-- `DO_BUY` and `DO_SELL`. -/
theorem lands_decision :
    Lands s .loop (Pass.decision ⟨r.kept, m⟩ side) ⟨.enable side, r⟩ m := by
  refine .load rfl rfl ?_
  simp only [resume, Pass.decision]
  split_ifs with hoff hroom
  · exact lands_reject statusDisabled
  · refine .load rfl rfl ?_
    simp only [resume, allowed_eq, decide_eq_true hroom, if_true]
    exact lands_publish
  · refine .load rfl rfl ?_
    simp only [resume, allowed_eq, decide_eq_false hroom]
    exact lands_reject statusRiskBlocked

/-- The band around the anchor. -/
theorem lands_quote (hanchor : r.anchor ≠ 0) :
    Lands .trading .loop (Pass.quote ⟨r.kept, m⟩) ⟨.thresh (m bid + m ask), r⟩ m := by
  have hquote : Pass.quote ⟨r.kept, m⟩ =
      let anchored : Pass := ⟨{ r.kept with anchor := m bid + m ask }, m⟩
      if (m bid + m ask).toInt < (r.anchor - (m cfgThresh + m cfgThresh)).toInt then
        anchored.decision .buy
      else if (r.anchor + (m cfgThresh + m cfgThresh)).toInt < (m bid + m ask).toInt then
        anchored.decision .sell
      else anchored := if_neg hanchor
  refine .load rfl rfl ?_
  rw [hquote]
  simp only [resume, Strategy.bandTest]
  split_ifs
  · exact lands_decision (r := { r with anchor := m bid + m ask })
  · exact lands_decision (r := { r with anchor := m bid + m ask })
  · exact .here rfl rfl

/-- A tick that has been read is consumed. -/
theorem lands_commit {seq : Word} (hbid : r.bid = m bid) (hask : r.ask = m ask) :
    Lands .trading .loop
      (if m bid = 0 ∨ m ask = 0 then ⟨{ r.kept with tick := seq }, m⟩
        else Pass.quote ⟨{ r.kept with tick := seq }, m⟩) ⟨.commit seq, r⟩ m := by
  refine .quiet rfl rfl ?_
  simp only [resume, Strategy.consider, hbid, hask]
  by_cases hzero : m bid = 0
  · rw [if_pos hzero, if_pos (.inl hzero)]
    exact .here rfl rfl
  by_cases hzero' : m ask = 0
  · rw [if_neg hzero, if_pos hzero', if_pos (.inr hzero')]
    exact .here rfl rfl
  rw [if_neg hzero, if_neg hzero', if_neg (not_or.mpr ⟨hzero, hzero'⟩)]
  by_cases hanchor : r.anchor = 0
  · rw [if_pos hanchor]
    have hquote : Pass.quote ⟨{ r.kept with tick := seq }, m⟩ =
        ⟨{ r.kept with tick := seq, anchor := m bid + m ask }, m⟩ := if_pos hanchor
    rw [hquote]
    exact .here rfl rfl
  · rw [if_neg hanchor]
    exact lands_quote (r := { r with bid := m bid, ask := m ask, tick := seq }) hanchor

/-- The seqlock read: with nobody else at the RAM the second reading is the first one. -/
theorem lands_quotes : Lands .trading .loop (Pass.quotes ⟨r.kept, m⟩) ⟨.tickSeq, r⟩ m := by
  refine .load rfl rfl ?_
  simp only [resume]
  by_cases hold : m tickSeq = r.tick
  · have hsame : Pass.quotes ⟨r.kept, m⟩ = ⟨r.kept, m⟩ := if_pos (.inl hold)
    rw [if_pos hold, hsame]
    exact .here rfl rfl
  by_cases heven : m tickSeq &&& 1 = 0
  · have hnew : Pass.quotes ⟨r.kept, m⟩ =
        if m bid = 0 ∨ m ask = 0 then ⟨{ r.kept with tick := m tickSeq }, m⟩
        else Pass.quote ⟨{ r.kept with tick := m tickSeq }, m⟩ :=
      if_neg (not_or.mpr ⟨hold, not_not.mpr heven⟩)
    rw [if_neg hold, if_pos heven, hnew]
    refine .load rfl rfl (.load rfl rfl (.load rfl rfl ?_))
    simp only [resume, if_true]
    exact lands_commit (r := { r with bid := m bid, ask := m ask }) rfl rfl
  · have hsame : Pass.quotes ⟨r.kept, m⟩ = ⟨r.kept, m⟩ := if_pos (.inr heven)
    rw [if_neg hold, if_neg heven, hsame]
    exact .here rfl rfl

/-- The fill mailbox. -/
theorem lands_mailbox :
    Lands .trading .loop (Pass.quotes (Pass.mailbox ⟨r.kept, m⟩)) ⟨.fillSeq, r⟩ m := by
  refine .load rfl rfl ?_
  simp only [resume]
  by_cases hold : m fillSeq = r.fill
  · have hsame : Pass.mailbox ⟨r.kept, m⟩ = ⟨r.kept, m⟩ := if_pos hold
    rw [if_pos hold, hsame]
    exact lands_quotes
  · have hnew : Pass.mailbox ⟨r.kept, m⟩ =
        let holds :=
          if m fillSide = fillBought then r.position + m fillQty else r.position - m fillQty
        Pass.store ⟨{ r.kept with position := holds, fill := m fillSeq }, m⟩ position holds :=
      if_neg hold
    rw [if_neg hold, hnew]
    refine .load rfl rfl (.load rfl rfl (.quiet rfl rfl (.store rfl rfl ?_)))
    simp only [resume, beq_iff_eq]
    exact lands_quotes (r := { r with
      position := if m fillSide = fillBought then r.position + m fillQty else r.position - m fillQty
      fill := m fillSeq })

/-- **A pass with a restart request** ends where the request is cleared. -/
theorem lands_restart (h : Pass.Restarts ⟨r.kept, m⟩) :
    Lands s .clearRestart (Pass.beats ⟨r.kept, m⟩)
      ⟨.beat, { r with beat := r.beat + 1 }⟩ m := by
  refine .store rfl rfl (.load rfl rfl ?_)
  have hrequest : Function.update m heartbeat (r.beat + 1) cfgRestart ≠ 0 := by
    rw [Function.update_of_ne (by decide)]
    exact h
  simp only [resume, if_neg hrequest]
  exact .here rfl rfl

/-- **A pass without one** ends at the next `LOOP`, with what the reference says. -/
theorem lands_run (h : ¬Pass.Restarts ⟨r.kept, m⟩) :
    Lands .trading .loop (Pass.run ⟨r.kept, m⟩) ⟨.beat, { r with beat := r.beat + 1 }⟩ m := by
  refine .store rfl rfl (.load rfl rfl ?_)
  have hrequest : Function.update m heartbeat (r.beat + 1) cfgRestart = 0 := by
    rw [Function.update_of_ne (by decide)]
    exact not_not.mp h
  have hrun : Pass.run ⟨r.kept, m⟩ = (Pass.beats ⟨r.kept, m⟩).mailbox.quotes := if_neg h
  simp only [resume, if_pos hrequest, hrun]
  exact lands_mailbox (r := { r with beat := r.beat + 1 })

end Thread

end Fmma
