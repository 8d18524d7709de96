import Fmma.Board

/-!
# Decisions on their way to the host

`EMIT` stores `SIGNAL`, then `SIGNAL_TICK`, then the next value of `SIGNAL_SEQ`;
`fmma_fpga_poll_signal` loads `SIGNAL_SEQ` and, if it is new, `SIGNAL` and `SIGNAL_TICK`. The
program does not wait for the host. A `Poller` is the host with the records it has returned and
with the decisions the CPU has published. Every record is the decision of its counter as long as
the host reads `SIGNAL` and `SIGNAL_TICK` before the program stores those of a later decision
(`Poller.InTime`).
-/

namespace Fmma

/-- How far the host is in a call of `poll_signal`: which words it has loaded. -/
inductive PollStage
  | idle
  | seq (v : Word)
  | side (v side : Word)
  deriving DecidableEq

/-- A decision as it is published. -/
structure Decision where
  side : Word
  tick : Word
  deriving DecidableEq

/-- The host as a poller of decisions, with the record of the run. -/
structure Poller where
  fpga : Fpga
  stage : PollStage
  /-- The handle has adopted `SIGNAL_SEQ`, when so many decisions had been published. -/
  attached : Bool
  base : Nat
  /-- How many decisions had been published when the call under way loaded `SIGNAL_SEQ`. -/
  index : Nat
  /-- The records returned, the last one first, each with the number of its decision. -/
  records : List (Nat × Signal)
  /-- The program has declared its version: `INIT` is over. -/
  declared : Bool
  /-- What the program has stored to `SIGNAL` and `SIGNAL_TICK` last, and how often. -/
  draft : Decision
  signalled : Nat
  ticked : Nat
  /-- The decisions published, the first one first. -/
  decisions : List Decision
  deriving DecidableEq

namespace Poller

/-- The number of the decision the handle has seen last. -/
def last (h : Poller) : Nat :=
  match h.records with
  | [] => h.base
  | p :: _ => p.1

/-- The handle adopts the counter, in `wait_for_cpu`. -/
def attach (h : Poller) (v : Word) : Poller :=
  { h with fpga := { h.fpga with signalSeq := v }, attached := true, base := h.decisions.length }

/-- A call has loaded `SIGNAL_SEQ`: it returns if the counter is not new. -/
def poll (h : Poller) (v : Word) : Poller :=
  if v = h.fpga.signalSeq then h else { h with stage := .seq v, index := h.decisions.length }

/-- A call has loaded `SIGNAL_TICK`, and returns a record. -/
def finish (h : Poller) (v side tick : Word) : Poller :=
  { h with
    stage := .idle
    fpga := (h.fpga.received v side tick).2
    records := (h.index, (h.fpga.received v side tick).1) :: h.records }

/-- What the host does once the program has declared its version: calls of `poll_signal`, one
after the other, load by load; and any stores into the input block, but for a restart. -/
inductive Act : Poller → (Addr → Word) → Option (Access Addr Word) → Poller → Prop
  | attach {h : Poller} {m : Addr → Word} (hdeclared : h.declared = true)
    (hnew : h.attached = false) : Act h m (some (.load signalSeq)) (h.attach (m signalSeq))
  | seq {h : Poller} {m : Addr → Word} (hattached : h.attached = true) (hidle : h.stage = .idle) :
    Act h m (some (.load signalSeq)) (h.poll (m signalSeq))
  | side {h : Poller} {m : Addr → Word} {v : Word} (hstage : h.stage = .seq v) :
    Act h m (some (.load signal)) { h with stage := .side v (m signal) }
  | tick {h : Poller} {m : Addr → Word} {v side : Word} (hstage : h.stage = .side v side) :
    Act h m (some (.load signalTick)) (h.finish v side (m signalTick))
  | other {h : Poller} {m : Addr → Word} (a : Addr) (v : Word)
    (hin : inputBase ≤ a ∧ a < outputBase) (hne : a ≠ cfgRestart) :
    Act h m (some (.store a v)) h

/-- What an access of the CPU says about the decisions: after `INIT`, the three stores of
`EMIT`. -/
def observe (h : Poller) : Access Addr Word → Poller
  | .load _ => h
  | .store a v =>
    if h.declared then
      if a = signal then
        { h with draft := { h.draft with side := v }, signalled := h.signalled + 1 }
      else if a = signalTick then
        { h with draft := { h.draft with tick := v }, ticked := h.ticked + 1 }
      else if a = signalSeq then { h with decisions := h.decisions ++ [h.draft] }
      else h
    else if a = fwVersion then { h with declared := true }
    else h

/-- **The condition on the host's loads**: when a call loads `SIGNAL`, the program has stored none
of a later decision than the one whose counter the call has loaded, and the same for
`SIGNAL_TICK`. -/
def InTime (h : Poller) (_ : Addr → Word) : Option (Access Addr Word) → Prop
  | some (.load a) =>
    (a = signal → h.signalled = h.index) ∧ (a = signalTick → h.ticked = h.index)
  | _ => True

instance (h : Poller) (m : Addr → Word) : ∀ x, Decidable (h.InTime m x)
  | some (.load _) => inferInstanceAs (Decidable (_ ∧ _))
  | some (.store _ _) => .isTrue trivial
  | none => .isTrue trivial

/-- The CPU is in `INIT`, and nothing has been published or polled. -/
def Starts (m : Addr → Word) (h : Poller) : Prop :=
  m cfgRestart = 0 ∧ h.stage = .idle ∧ h.attached = false ∧ h.records = [] ∧
    h.declared = false ∧ h.signalled = 0 ∧ h.ticked = 0 ∧ h.decisions = []

end Poller

/-- The host as a poller. -/
def poller : Host Poller where
  act := Poller.Act
  observe h _ x _ := h.observe x

/-- The host as a poller that is in time. -/
def timelyPoller : Host Poller :=
  poller.restrict (fun _ _ _ _ => True) Poller.InTime

/-! ### The invariants -/

/-- Which of the three stores of `EMIT` the program has made at a point. -/
def Point.begun : Point → Nat × Nat
  | .signalTick => (1, 0)
  | .status => (1, 1)
  | .signalSeq => (1, 1)
  | .signalSeqStore _ => (1, 1)
  | _ => (0, 0)

/-- The points of `EMIT`. -/
def Point.emitting : Point → Bool
  | .signal _ => true
  | .signalTick => true
  | .status => true
  | .signalSeq => true
  | .signalSeqStore _ => true
  | _ => false

namespace Poller

/-- `INIT`: nothing has been published, and `SIGNAL_SEQ` is cleared. -/
def Booting (s : Strategy) (p : Point) (m : Addr → Word) : Prop :=
  match p with
  | .clear i => ∀ j < i, s.clearOrder j = signalSeq → m signalSeq = 0
  | .setStatus => m signalSeq = 0
  | .setVersion => m signalSeq = 0
  | _ => True

/-- **The writer's invariant**: how many decisions are begun and published, and what of them is
in the RAM. -/
structure Publishing (s : Strategy) (t : Thread) (m : Addr → Word) (h : Poller) : Prop where
  declared : h.declared = !t.point.booting
  boot : t.point.booting = true → h.decisions = [] ∧ Booting s t.point m
  seq : t.point.booting = false → m signalSeq = BitVec.ofNat 32 h.decisions.length
  next : ∀ v, t.point = .signalSeqStore v → v = BitVec.ofNat 32 (h.decisions.length + 1)
  signalled : h.signalled = h.decisions.length + t.point.begun.1
  ticked : h.ticked = h.decisions.length + t.point.begun.2
  side : t.point.begun.1 = 0 → ∀ d, h.decisions.getLast? = some d → d.side = m signal
  tick : t.point.begun.2 = 0 → ∀ d, h.decisions.getLast? = some d → d.tick = m signalTick
  draftSide : t.point.begun.1 = 1 → h.draft.side = m signal
  draftTick : t.point.begun.2 = 1 → h.draft.tick = m signalTick

/-- A record is the decision of its number. -/
structure Faithful (l : List Decision) (k : Nat) (r : Signal) : Prop where
  pos : 0 < k
  seq : r.seq = BitVec.ofNat 32 k
  decision : l[k - 1]? = some ⟨r.side, r.tick⟩

/-- The call under way has loaded the counter of decision number `index`. -/
structure Called (h : Poller) (v : Word) : Prop where
  counter : v = BitVec.ofNat 32 h.index
  new : h.last < h.index
  published : h.index ≤ h.decisions.length

/-- **The reader's invariant.** -/
structure Polling (h : Poller) : Prop where
  seq : ∀ v, h.stage = .seq v → h.Called v
  side : ∀ v side, h.stage = .side v side →
    h.Called v ∧ ∃ tick, h.decisions[h.index - 1]? = some ⟨side, tick⟩
  unattached : h.attached = false → h.records = [] ∧ h.stage = .idle
  kept : h.attached = true → h.fpga.signalSeq = BitVec.ofNat 32 h.last
  seen : h.attached = true → h.last ≤ h.decisions.length
  records : ∀ p ∈ h.records, Faithful h.decisions p.1 p.2
  sorted : (h.records.map Prod.fst).Pairwise (· > ·)
  counted : (h.records.map fun p => 1 + p.2.missed).sum =
    BitVec.ofNat 32 h.last - BitVec.ofNat 32 h.base

/-- The invariant of the board. -/
structure Inv (s : Strategy) (t : Thread) (m : Addr → Word) (h : Poller) : Prop where
  restart : m cfgRestart = 0
  running : t.point ≠ .clearRestart
  attached : h.attached = true → h.declared = true
  publishing : h.Publishing s t m
  polling : h.Polling

variable {s : Strategy} {t : Thread} {m m' : Addr → Word} {h h' : Poller}
  {x : Option (Access Addr Word)}

/-! ### The host's steps -/

/-- The fields of the record that the writer's invariant looks at. -/
def written (h : Poller) : Bool × Decision × Nat × Nat × List Decision :=
  (h.declared, h.draft, h.signalled, h.ticked, h.decisions)

/-- The writer's invariant is about those fields and three words. -/
theorem Publishing.congr (hp : h.Publishing s t m) (heq : h'.written = h.written)
    (hside : m' signal = m signal) (htick : m' signalTick = m signalTick)
    (hseq : m' signalSeq = m signalSeq) : h'.Publishing s t m' := by
  simp only [written, Prod.mk.injEq] at heq
  obtain ⟨hdecl, hdraft, hsignalled, hticked, hdec⟩ := heq
  refine ⟨hdecl.trans hp.declared, fun hb => ?_, fun hb => ?_, fun v hv => ?_, ?_, ?_,
    fun hb d hd => ?_, fun hb d hd => ?_, fun hb => ?_, fun hb => ?_⟩
  · obtain ⟨hnil, hboot⟩ := hp.boot hb
    refine ⟨hdec.trans hnil, ?_⟩
    obtain ⟨point, r⟩ := t
    cases point with
    | clear i => exact fun j hj hc => hseq.trans (hboot j hj hc)
    | setStatus => exact hseq.trans hboot
    | setVersion => exact hseq.trans hboot
    | _ => trivial
  · rw [hseq, hdec, hp.seq hb]
  · rw [hdec, hp.next v hv]
  · rw [hsignalled, hdec, hp.signalled]
  · rw [hticked, hdec, hp.ticked]
  · rw [hside, hp.side hb d (hdec ▸ hd)]
  · rw [htick, hp.tick hb d (hdec ▸ hd)]
  · rw [hside, hdraft, hp.draftSide hb]
  · rw [htick, hdraft, hp.draftTick hb]

/-- The program declares its version at the end of `INIT`. -/
theorem Publishing.booting_eq_false (hp : h.Publishing s t m) (hd : h.declared = true) :
    t.point.booting = false := by
  have := hp.declared
  rw [hd] at this
  simpa using this.symm

/-- The last decision is the one of number `length`. -/
theorem getElem?_pred_length (l : List Decision) : l[l.length - 1]? = l.getLast? :=
  List.getLast?_eq_getElem?.symm

/-- **Loading `SIGNAL` in time** finds the side of the decision called for. -/
theorem Publishing.side_of_called (hp : h.Publishing s t m) {v : Word} (hc : h.Called v)
    (htime : h.signalled = h.index) :
    ∃ tick, h.decisions[h.index - 1]? = some ⟨m signal, tick⟩ := by
  have hindex : h.index = h.decisions.length := by
    have := hp.signalled
    have := hc.published
    omega
  have hbegun : t.point.begun.1 = 0 := by
    have := hp.signalled
    omega
  have hpos := hc.new
  rw [hindex, getElem?_pred_length]
  cases hlast : h.decisions.getLast? with
  | none =>
    rw [List.getLast?_eq_none_iff] at hlast
    rw [hindex, hlast] at hpos
    exact absurd hpos (Nat.not_lt_zero _)
  | some d => exact ⟨d.tick, by rw [← hp.side hbegun d hlast]⟩

/-- **Loading `SIGNAL_TICK` in time** finds its tick. -/
theorem Publishing.tick_of_called (hp : h.Publishing s t m) {v : Word} (hc : h.Called v)
    (htime : h.ticked = h.index) {d : Decision} (hd : h.decisions[h.index - 1]? = some d) :
    d.tick = m signalTick := by
  have hindex : h.index = h.decisions.length := by
    have := hp.ticked
    have := hc.published
    omega
  have hbegun : t.point.begun.2 = 0 := by
    have := hp.ticked
    omega
  refine hp.tick hbegun d ?_
  rw [← getElem?_pred_length, ← hindex]
  exact hd

/-- The records are of decisions up to the last one. -/
theorem Polling.le_last (hp : h.Polling) : ∀ p ∈ h.records, p.1 ≤ h.last := by
  have hsorted := hp.sorted
  rw [last]
  cases hrecords : h.records with
  | nil => exact nofun
  | cons q rest =>
    rw [hrecords, List.map_cons, List.pairwise_cons] at hsorted
    intro p hmem
    rcases List.mem_cons.mp hmem with rfl | hmem
    · exact le_rfl
    · exact (hsorted.1 p.1 (List.mem_map_of_mem hmem)).le

/-- **Returning a record**: it is counted, with the decisions missed before it. -/
theorem Polling.finish (hp : h.Polling) {v side tick : Word} (hc : h.Called v)
    (hattached : h.attached = true) (hd : h.decisions[h.index - 1]? = some ⟨side, tick⟩) :
    (h.finish v side tick).Polling := by
  have hlast : (h.finish v side tick).last = h.index := rfl
  refine ⟨by rintro v ⟨⟩, by rintro v side ⟨⟩, fun ha => ?_, fun _ => hc.counter,
    fun _ => hc.published, ?_, ?_, ?_⟩
  · change h.attached = false at ha
    rw [hattached] at ha
    cases ha
  · intro p hmem
    rcases List.mem_cons.mp hmem with rfl | hmem
    · exact ⟨Nat.zero_lt_of_lt hc.new, hc.counter, hd⟩
    · exact hp.records p hmem
  · change (h.index :: h.records.map Prod.fst).Pairwise (· > ·)
    refine List.pairwise_cons.mpr ⟨fun k hk => ?_, hp.sorted⟩
    obtain ⟨p, hmem, rfl⟩ := List.mem_map.mp hk
    exact lt_of_le_of_lt (hp.le_last p hmem) hc.new
  · have hcounted := hp.counted
    change (1 + (v - h.fpga.signalSeq - 1)) + (h.records.map fun p => 1 + p.2.missed).sum =
      BitVec.ofNat 32 h.index - BitVec.ofNat 32 h.base
    rw [hcounted, hp.kept hattached, hc.counter]
    generalize BitVec.ofNat 32 h.index = a
    generalize BitVec.ofNat 32 h.last = b
    generalize BitVec.ofNat 32 h.base = c
    bv_omega

/-- Everything the host does in time keeps the invariant. -/
theorem Inv.act (hI : Inv s t m h) (hx : Act h m x h') (htime : h.InTime m x) :
    Inv s t (Access.applyOpt m x) h' := by
  obtain ⟨hrestart, hrunning, hattach, hpub, hpoll⟩ := hI
  cases hx with
  | attach hdeclared hnew =>
    obtain ⟨hnil, hidle⟩ := hpoll.unattached hnew
    have hboot := hpub.booting_eq_false hdeclared
    have hlast : (h.attach (m signalSeq)).last = h.decisions.length := by
      simp only [last, Poller.attach, hnil]
    refine ⟨hrestart, hrunning, fun _ => hdeclared, hpub.congr rfl rfl rfl rfl, ?_, ?_,
      by rintro ⟨⟩, fun _ => ?_, fun _ => hlast.le, ?_, ?_, ?_⟩
    · exact fun v hv => absurd (hidle.symm.trans hv) (by rintro ⟨⟩)
    · exact fun v side hv => absurd (hidle.symm.trans hv) (by rintro ⟨⟩)
    · rw [hlast]
      exact hpub.seq hboot
    · exact fun p hp => by simp [Poller.attach, hnil] at hp
    · simp only [Poller.attach, hnil, List.map_nil, List.Pairwise.nil]
    · rw [hlast]
      simp only [Poller.attach, hnil, List.map_nil, List.sum_nil, BitVec.sub_self]
      rfl
  | seq hattached hidle =>
    rw [Poller.poll]
    split_ifs with hseq
    · exact ⟨hrestart, hrunning, hattach, hpub.congr rfl rfl rfl rfl, hpoll⟩
    · have hboot := hpub.booting_eq_false (hattach hattached)
      have hcalled : Called { h with stage := .seq (m signalSeq), index := h.decisions.length }
          (m signalSeq) := by
        refine ⟨hpub.seq hboot, lt_of_le_of_ne (hpoll.seen hattached) fun heq => hseq ?_, le_rfl⟩
        have hlast : h.last = h.decisions.length := heq
        rw [hpub.seq hboot, hpoll.kept hattached, hlast]
      refine ⟨hrestart, hrunning, hattach, hpub.congr rfl rfl rfl rfl, ?_, by rintro v side ⟨⟩, ?_,
        hpoll.kept, hpoll.seen, hpoll.records, hpoll.sorted, hpoll.counted⟩
      · rintro v hv
        cases hv
        exact hcalled
      · exact fun ha => absurd (hattached.symm.trans ha) (by decide)
  | @side v hstage =>
    have hcalled := hpoll.seq v hstage
    obtain ⟨tick, htick⟩ := hpub.side_of_called hcalled (htime.1 rfl)
    refine ⟨hrestart, hrunning, hattach, hpub.congr rfl rfl rfl rfl, by rintro v ⟨⟩, ?_,
      fun ha => ?_, hpoll.kept, hpoll.seen, hpoll.records, hpoll.sorted, hpoll.counted⟩
    · rintro w side hw
      cases hw
      exact ⟨⟨hcalled.counter, hcalled.new, hcalled.published⟩, tick, htick⟩
    · rw [(hpoll.unattached ha).2] at hstage
      cases hstage
  | @tick v side hstage =>
    obtain ⟨hcalled, tick, htick⟩ := hpoll.side v side hstage
    have heq : tick = m signalTick := hpub.tick_of_called hcalled (htime.2 rfl) htick
    have hattached : h.attached = true := by
      by_contra ha
      rw [(hpoll.unattached (by simpa using ha)).2] at hstage
      cases hstage
    exact ⟨hrestart, hrunning, hattach, hpub.congr rfl rfl rfl rfl,
      hpoll.finish hcalled hattached (heq ▸ htick)⟩
  | other a v hin hne =>
    have hmem : ∀ b, outputBase ≤ b → Function.update m a v b = m b := fun b hb =>
      Function.update_of_ne (by rintro rfl; exact absurd hin.2 (BitVec.not_lt.mpr hb)) _ _
    exact ⟨(Function.update_of_ne hne.symm _ _).trans hrestart, hrunning, hattach,
      hpub.congr rfl (hmem _ (by decide)) (hmem _ (by decide)) (hmem _ (by decide)), hpoll⟩

/-! ### The program's steps -/

section Steps

variable {y : Access Addr Word}

/-- Outside of `INIT` and `EMIT` a program steps to a point of neither, or to the head of
`EMIT`. -/
theorem resume_steady (hb : t.point.booting = false) (he : t.point.emitting = false)
    (hr : t.point ≠ .clearRestart) (v : Word) :
    (t.resume s v).point.booting = false ∧ (t.resume s v).point.begun = (0, 0) := by
  obtain ⟨point, r⟩ := t
  cases point with
  | restart =>
    simp only [Thread.resume]
    split_ifs <;> exact ⟨rfl, rfl⟩
  | clearRestart => exact absurd rfl hr
  | fillSeq =>
    simp only [Thread.resume]
    split_ifs <;> exact ⟨rfl, rfl⟩
  | tickSeq =>
    simp only [Thread.resume]
    split_ifs <;> exact ⟨rfl, rfl⟩
  | tickSeq2 seq =>
    simp only [Thread.resume]
    split_ifs <;> exact ⟨rfl, rfl⟩
  | commit seq =>
    cases s <;> simp only [Thread.resume, Strategy.consider, Strategy.setQuotes] <;> split_ifs <;>
      exact ⟨rfl, rfl⟩
  | thresh sum =>
    simp only [Thread.resume, Strategy.bandTest]
    split_ifs <;> exact ⟨rfl, rfl⟩
  | enable side =>
    simp only [Thread.resume]
    split_ifs <;> exact ⟨rfl, rfl⟩
  | maxPos side =>
    simp only [Thread.resume]
    split_ifs <;> exact ⟨rfl, rfl⟩
  | _ => first
    | exact ⟨rfl, rfl⟩
    | (cases hb; done)
    | cases he

/-- There, no word of a decision is stored. -/
theorem store_steady (hb : t.point.booting = false) (he : t.point.emitting = false) {a : Addr}
    {v : Word} (hy : t.access s = some (.store a v)) : a ∉ [signal, signalTick, signalSeq] := by
  obtain ⟨point, r⟩ := t
  cases point
  all_goals first
    | (cases hb; done)
    | (cases he; done)
    | (cases hy; decide)
    | cases hy

/-- There, no store of `EMIT` has been made. -/
theorem begun_of_steady {p : Point} (he : p.emitting = false) : p.begun = (0, 0) := by
  cases p
  all_goals first
    | rfl
    | cases he

/-- The writer's invariant does not depend on where the program is between two decisions. -/
theorem Publishing.move (hp : h.Publishing s t m) (hb : t.point.booting = false)
    (hbegun : t.point.begun = (0, 0)) {t' : Thread} (hb' : t'.point.booting = false)
    (hbegun' : t'.point.begun = (0, 0)) : h.Publishing s t' m := by
  refine ⟨?_, fun h => ?_, fun _ => hp.seq hb, fun v hv => ?_, ?_, ?_, fun _ => hp.side (by
    rw [hbegun]), fun _ => hp.tick (by rw [hbegun]), fun h => ?_, fun h => ?_⟩
  · rw [hp.declared, hb, hb']
  · rw [hb'] at h
    cases h
  · rw [hv] at hbegun'
    cases hbegun'
  · rw [hp.signalled, hbegun, hbegun']
  · rw [hp.ticked, hbegun, hbegun']
  · rw [hbegun'] at h
    cases h
  · rw [hbegun'] at h
    cases h

/-- Before the first decision. -/
theorem Publishing.of_nil (hdecl : h.declared = !t.point.booting) (hnil : h.decisions = [])
    (hsignalled : h.signalled = 0) (hticked : h.ticked = 0) (hbegun : t.point.begun = (0, 0))
    (hboot : Booting s t.point m) (hseq : t.point.booting = false → m signalSeq = 0) :
    h.Publishing s t m := by
  refine ⟨hdecl, fun _ => ⟨hnil, hboot⟩, fun hb => ?_, fun v hv => ?_, ?_, ?_, fun _ d hd => ?_,
    fun _ d hd => ?_, fun h => ?_, fun h => ?_⟩
  · rw [hseq hb, hnil]
    rfl
  · rw [hv] at hbegun
    cases hbegun
  · rw [hsignalled, hnil, hbegun]
    rfl
  · rw [hticked, hnil, hbegun]
    rfl
  · rw [hnil] at hd
    cases hd
  · rw [hnil] at hd
    cases hd
  · rw [hbegun] at h
    cases h
  · rw [hbegun] at h
    cases h

/-- In `INIT` the program only observes that it declares its version. -/
theorem observe_booting (hd : h.declared = false) (hy : ∀ v, y ≠ .store fwVersion v) :
    h.observe y = h := by
  cases y with
  | load a => rfl
  | store a v =>
    have ha : a ≠ fwVersion := by
      rintro rfl
      exact hy v rfl
    simp only [observe, hd, Bool.false_eq_true, if_false, ha]

/-- **`INIT`** clears `SIGNAL_SEQ`. -/
theorem Publishing.access_booting (hp : h.Publishing s t m) (hb : t.point.booting = true)
    (hy : t.access s = some y) : (h.observe y).Publishing s (t.step s m) (y.apply m) := by
  obtain ⟨hnil, hboot⟩ := hp.boot hb
  have hdecl : h.declared = false := by
    rw [hp.declared, hb]
    rfl
  have hbegun : t.point.begun = (0, 0) := begun_of_steady (by
    cases hpt : t.point
    all_goals first
      | rfl
      | (rw [hpt] at hb; cases hb))
  have hsignalled : h.signalled = 0 := by
    rw [hp.signalled, hnil, hbegun]
    rfl
  have hticked : h.ticked = 0 := by
    rw [hp.ticked, hnil, hbegun]
    rfl
  obtain ⟨point, r⟩ := t
  cases point with
  | initPosition =>
    cases hy
    exact .of_nil hdecl hnil hsignalled hticked rfl trivial (by rintro ⟨⟩)
  | initFill =>
    cases hy
    exact .of_nil hdecl hnil hsignalled hticked rfl (fun j hj => absurd hj (Nat.not_lt_zero j))
      (by rintro ⟨⟩)
  | clear i =>
    cases hy
    have hupd := s.clear_update (a := signalSeq) hboot
      (v := if s.clearOrder i = position then r.position else 0) fun hc => if_neg (by
        rw [hc]
        decide)
    rw [observe_booting hdecl (by
      rintro v heq
      injection heq with hc
      revert hc
      fin_cases i <;> cases s <;> decide)]
    by_cases hlt : i.val < 6
    · have hstep : Thread.step s ⟨.clear i, r⟩ m = ⟨.clear ⟨i + 1, by omega⟩, r⟩ := dif_pos hlt
      rw [hstep]
      refine .of_nil hdecl hnil hsignalled hticked rfl (fun j hj hc => hupd j ?_ hc) (by rintro ⟨⟩)
      exact Fin.le_def.mpr (Nat.lt_succ_iff.mp (Fin.lt_def.mp hj))
    · have hstep : Thread.step s ⟨.clear i, r⟩ m = ⟨.setStatus, r⟩ := dif_neg hlt
      rw [hstep]
      exact .of_nil hdecl hnil hsignalled hticked rfl
        (hupd 2 (Fin.le_def.mpr (by change 2 ≤ i.val; omega)) rfl) (by rintro ⟨⟩)
  | setStatus =>
    cases hy
    rw [observe_booting hdecl (by
      rintro v heq
      cases heq)]
    refine .of_nil hdecl hnil hsignalled hticked rfl ?_ (by rintro ⟨⟩)
    exact (Function.update_of_ne (by decide) _ _).trans hboot
  | setVersion =>
    cases hy
    have hobs : h.observe (.store fwVersion protocolVersion) = { h with declared := true } := by
      simp only [observe, hdecl, Bool.false_eq_true, if_false, if_true]
    rw [hobs]
    refine .of_nil rfl hnil hsignalled hticked rfl trivial fun _ => ?_
    exact (Function.update_of_ne (by decide) _ _).trans hboot
  | _ => cases hb

/-- **`EMIT`**, store by store. -/
theorem Publishing.access_emitting (hp : h.Publishing s t m) (he : t.point.emitting = true)
    (hy : t.access s = some y) : (h.observe y).Publishing s (t.step s m) (y.apply m) := by
  obtain ⟨point, r⟩ := t
  cases point with
  | signal d =>
    cases hy
    have hobs : h.observe (.store signal d.signal) =
        { h with draft := { h.draft with side := d.signal }, signalled := h.signalled + 1 } := by
      simp only [observe, hp.declared, Point.booting, Bool.not_false, if_true]
    rw [hobs]
    refine ⟨hp.declared, by rintro ⟨⟩, fun _ => ?_, by rintro v ⟨⟩, ?_, hp.ticked, by rintro ⟨⟩,
      fun h0 d hd => ?_, fun _ => ?_, by rintro ⟨⟩⟩
    · exact (Function.update_of_ne (by decide) _ _).trans (hp.seq rfl)
    · exact congrArg (· + 1) hp.signalled
    · exact (hp.tick h0 d hd).trans (Function.update_of_ne (by decide) _ _).symm
    · exact (Function.update_self signal d.signal m).symm
  | signalTick =>
    cases hy
    have hobs : h.observe (.store signalTick r.tick) =
        { h with draft := { h.draft with tick := r.tick }, ticked := h.ticked + 1 } := by
      simp [observe, hp.declared, Point.booting]
    change (h.observe (.store signalTick r.tick)).Publishing s _ _
    rw [hobs]
    refine ⟨hp.declared, by rintro ⟨⟩, fun _ => ?_, by rintro v ⟨⟩, hp.signalled, ?_, by rintro ⟨⟩,
      by rintro ⟨⟩, fun _ => ?_, fun _ => ?_⟩
    · exact (Function.update_of_ne (by decide) _ _).trans (hp.seq rfl)
    · exact congrArg (· + 1) hp.ticked
    · exact (hp.draftSide rfl).trans (Function.update_of_ne (by decide) _ _).symm
    · exact (Function.update_self signalTick r.tick m).symm
  | status =>
    cases hy
    have hobs : h.observe (.store Fmma.status statusRunning) = h := by
      simp [observe, hp.declared, Point.booting]
    rw [hobs]
    refine ⟨hp.declared, by rintro ⟨⟩, fun _ => ?_, by rintro v ⟨⟩, hp.signalled, hp.ticked,
      by rintro ⟨⟩, by rintro ⟨⟩, fun _ => ?_, fun _ => ?_⟩
    · exact (Function.update_of_ne (by decide) _ _).trans (hp.seq rfl)
    · exact (hp.draftSide rfl).trans (Function.update_of_ne (by decide) _ _).symm
    · exact (hp.draftTick rfl).trans (Function.update_of_ne (by decide) _ _).symm
  | signalSeq =>
    cases hy
    refine ⟨hp.declared, by rintro ⟨⟩, fun _ => hp.seq rfl, fun v hv => ?_, hp.signalled, hp.ticked,
      by rintro ⟨⟩, by rintro ⟨⟩, fun _ => hp.draftSide rfl, fun _ => hp.draftTick rfl⟩
    have hv : m Fmma.signalSeq + 1 = v := by
      injection hv
    rw [← hv, hp.seq rfl, BitVec.ofNat_add]
    rfl
  | signalSeqStore v =>
    cases hy
    have hobs : h.observe (.store Fmma.signalSeq v) =
        { h with decisions := h.decisions ++ [h.draft] } := by
      simp [observe, hp.declared, Point.booting]
    rw [hobs]
    refine ⟨hp.declared, by rintro ⟨⟩, fun _ => ?_, by rintro v ⟨⟩, ?_, ?_, fun _ d hd => ?_,
      fun _ d hd => ?_, by rintro ⟨⟩, by rintro ⟨⟩⟩
    · rw [List.length_append, List.length_singleton, ← hp.next v rfl]
      exact Function.update_self Fmma.signalSeq v m
    · rw [List.length_append]
      exact hp.signalled
    · rw [List.length_append]
      exact hp.ticked
    · rw [List.getLast?_concat, Option.some.injEq] at hd
      rw [← hd]
      exact (hp.draftSide rfl).trans (Function.update_of_ne (by decide) _ _).symm
    · rw [List.getLast?_concat, Option.some.injEq] at hd
      rw [← hd]
      exact (hp.draftTick rfl).trans (Function.update_of_ne (by decide) _ _).symm
  | _ => cases he

/-- Everywhere else nothing happens to the decisions. -/
theorem Publishing.access_steady (hp : h.Publishing s t m) (hb : t.point.booting = false)
    (he : t.point.emitting = false) (hr : t.point ≠ .clearRestart) (hy : t.access s = some y) :
    (h.observe y).Publishing s (t.step s m) (y.apply m) := by
  have hdecl : h.declared = true := by
    rw [hp.declared, hb]
    rfl
  have hmem : ∀ a ∈ [signal, signalTick, signalSeq], y.apply m a = m a := by
    intro a ha
    refine Access.apply_of_ne ?_
    rintro b v rfl rfl
    exact store_steady hb he hy ha
  have hobs : h.observe y = h := by
    cases y with
    | load a => rfl
    | store a v =>
      have ha := store_steady hb he hy
      simp only [List.mem_cons, List.not_mem_nil, or_false, not_or] at ha
      simp only [observe, hdecl, if_true, ha, if_false]
  obtain ⟨hb', hbegun'⟩ := resume_steady (s := s) hb he hr (t.reads s m)
  rw [hobs]
  exact (hp.congr rfl (hmem _ (by decide)) (hmem _ (by decide)) (hmem _ (by decide))).move hb
    (begun_of_steady he) hb' hbegun'

/-- What an access of the CPU does to the record: decisions are added at the end. -/
theorem observe_extends (h : Poller) (y : Access Addr Word) :
    (h.declared = true → (h.observe y).declared = true) ∧
      (∃ l, (h.observe y).decisions = h.decisions ++ l) ∧
      ((h.observe y).fpga, (h.observe y).stage, (h.observe y).attached, (h.observe y).base,
        (h.observe y).index, (h.observe y).records) =
      (h.fpga, h.stage, h.attached, h.base, h.index, h.records) := by
  cases y with
  | load a => exact ⟨id, ⟨[], (List.append_nil _).symm⟩, rfl⟩
  | store a v =>
    simp only [observe]
    split_ifs
    all_goals first
      | exact ⟨id, ⟨[], (List.append_nil _).symm⟩, rfl⟩
      | exact ⟨id, ⟨[h.draft], rfl⟩, rfl⟩
      | exact ⟨fun _ => rfl, ⟨[], (List.append_nil _).symm⟩, rfl⟩

/-- **More decisions** do not concern the reader. -/
theorem Polling.extend (hp : h.Polling) {l : List Decision} (hdec : h'.decisions = h.decisions ++ l)
    (heq : (h'.fpga, h'.stage, h'.attached, h'.base, h'.index, h'.records) =
      (h.fpga, h.stage, h.attached, h.base, h.index, h.records)) : h'.Polling := by
  simp only [Prod.mk.injEq] at heq
  obtain ⟨hfpga, hstage, hattached, hbase, hindex, hrecords⟩ := heq
  have hlast : h'.last = h.last := by rw [last, last, hrecords, hbase]
  have hlen : h.decisions.length ≤ h'.decisions.length := by
    rw [hdec, List.length_append]
    omega
  have hget : ∀ {k : Nat} {d : Decision}, h.decisions[k]? = some d → h'.decisions[k]? = some d := by
    intro k d hk
    rw [hdec, List.getElem?_append_left (List.getElem?_eq_some_iff.mp hk).1, hk]
  have hcalled : ∀ {v}, h.Called v → h'.Called v := fun hc =>
    ⟨hindex ▸ hc.counter, by rw [hlast, hindex]; exact hc.new, hindex ▸ hc.published.trans hlen⟩
  refine ⟨fun v hv => hcalled (hp.seq v (hstage ▸ hv)), fun v side hv => ?_, fun ha => ?_,
    fun ha => ?_, fun ha => ?_, fun p hmem => ?_, ?_, ?_⟩
  · obtain ⟨hc, tick, htick⟩ := hp.side v side (hstage ▸ hv)
    exact ⟨hcalled hc, tick, hindex ▸ hget htick⟩
  · rw [hrecords, hstage]
    exact hp.unattached (hattached ▸ ha)
  · rw [hfpga, hlast]
    exact hp.kept (hattached ▸ ha)
  · rw [hlast]
    exact (hp.seen (hattached ▸ ha)).trans hlen
  · obtain ⟨hpos, hseq, hd⟩ := hp.records p (hrecords ▸ hmem)
    exact ⟨hpos, hseq, hget hd⟩
  · rw [hrecords]
    exact hp.sorted
  · rw [hrecords, hlast, hbase]
    exact hp.counted

/-- The accesses of the program keep the invariant. -/
theorem Inv.access (hI : Inv s t m h) (hy : t.access s = some y) :
    Inv s (t.step s m) (y.apply m) (h.observe y) := by
  obtain ⟨hrestart, hrunning, hattach, hpub, hpoll⟩ := hI
  obtain ⟨hdecl, ⟨l, hdec⟩, heq⟩ := h.observe_extends y
  have hattached : (h.observe y).attached = h.attached := by
    simp only [Prod.mk.injEq] at heq
    exact heq.2.2.1
  refine ⟨Strategy.apply_cfgRestart hy hrestart, ?_,
    fun ha => hdecl (hattach (hattached ▸ ha)), ?_, hpoll.extend hdec heq⟩
  · refine Thread.resume_ne_clearRestart fun hp => ?_
    obtain ⟨point, r⟩ := t
    cases hp
    exact hrestart
  · cases hb : t.point.booting with
    | true => exact hpub.access_booting hb hy
    | false =>
      cases he : t.point.emitting with
      | true => exact hpub.access_emitting he hy
      | false => exact hpub.access_steady hb he hrunning hy

/-- The steps without an access. -/
theorem Inv.internal (hI : Inv s t m h) (hnone : t.access s = none) : Inv s (t.step s m) m h := by
  obtain ⟨hrestart, hrunning, hattach, hpub, hpoll⟩ := hI
  have hsteady : t.point.booting = false ∧ t.point.emitting = false := by
    obtain ⟨point, r⟩ := t
    cases point
    all_goals first
      | exact ⟨rfl, rfl⟩
      | cases hnone
  obtain ⟨hb', hbegun'⟩ := resume_steady (s := s) hsteady.1 hsteady.2 hrunning (t.reads s m)
  refine ⟨hrestart, Thread.resume_ne_clearRestart fun hp => ?_, hattach,
    hpub.move hsteady.1 (begun_of_steady hsteady.2) hb' hbegun', hpoll⟩
  rw [Thread.reads, hnone]

end Steps

/-- `INIT` begins with the invariant. -/
theorem Starts.inv {r : Regs} (hs : h.Starts m) : Inv s (Thread.initial s r) m h := by
  obtain ⟨hrestart, hidle, hattached, hrecords, hdecl, hsignalled, hticked, hnil⟩ := hs
  have hlast : h.last = h.base := by rw [last, hrecords]
  refine ⟨hrestart, by rintro ⟨⟩, fun ha => ?_, .of_nil hdecl hnil hsignalled hticked rfl trivial
    (by rintro ⟨⟩), fun v hv => ?_, fun v side hv => ?_, fun _ => ⟨hrecords, hidle⟩,
    fun ha => ?_, fun ha => ?_,
    fun p hp => ?_, ?_, ?_⟩
  · exact absurd (hattached.symm.trans ha) (by decide)
  · exact absurd (hidle.symm.trans hv) (by rintro ⟨⟩)
  · exact absurd (hidle.symm.trans hv) (by rintro ⟨⟩)
  · exact absurd (hattached.symm.trans ha) (by decide)
  · exact absurd (hattached.symm.trans ha) (by decide)
  · rw [hrecords] at hp
    cases hp
  · rw [hrecords]
    exact .nil
  · rw [hrecords, hlast, BitVec.sub_self]
    rfl

end Poller

/-! ### Delivery -/

theorem poller_onlyShared : poller.OnlyShared := by
  rintro h m x h' hx a v rfl
  cases hx with
  | other _ _ hin _ => exact hin.1

theorem timelyPoller_onlyShared : timelyPoller.OnlyShared :=
  fun h m x h' hx => poller_onlyShared h m x h' hx.1

/-- **Every decision is delivered once or counted as missed**, if the host loads the words of a
decision before the program stores those of a later one: each record is the decision of its
number, which is its counter; the numbers grow from record to record; and the records, each with
what it missed, count the decisions from the one the handle started with up to the last one
seen. -/
theorem signals_delivered (s : Strategy) {c : Cpu} {h : Poller}
    (hr : cpuMachine.Reachable timelyPoller (boot s Poller.Starts) (c, h)) :
    (∀ p ∈ h.records, 0 < p.1 ∧ p.2.seq = BitVec.ofNat 32 p.1 ∧
      h.decisions[p.1 - 1]? = some ⟨p.2.side, p.2.tick⟩) ∧
    (h.records.map Prod.fst).Pairwise (· > ·) ∧
    (h.records.map fun p => 1 + p.2.missed).sum =
      BitVec.ofNat 32 h.last - BitVec.ofNat 32 h.base := by
  obtain ⟨t, -, -, hI⟩ := board_invariant s timelyPoller_onlyShared
    (I := fun t m h => Poller.Inv s t m h) (fun r m h hs => hs.inv)
    (fun t m h hI hnone => hI.internal hnone)
    (fun t m h x hI hx _ => hI.access hx)
    (fun t m h x h' hI hx => hI.act hx.1 hx.2)
    (fun t m h h' r _ hreset => hreset.elim) hr
  refine ⟨fun p hp => ?_, hI.polling.sorted, hI.polling.counted⟩
  obtain ⟨hpos, hseq, hd⟩ := hI.polling.records p hp
  exact ⟨hpos, hseq, hd⟩

/-! ### Concrete runs -/

/-- What the host can be told to do. -/
inductive PollerCommand
  | attach
  | poll
  | side
  | tick
  | poke (a : Addr) (v : Word)

/-- What it does then, if it can. -/
def PollerCommand.perform (h : Poller) (m : Addr → Word) :
    PollerCommand → Option (Option (Access Addr Word) × Poller)
  | .attach =>
    if h.declared = true ∧ h.attached = false then
      some (some (.load signalSeq), h.attach (m signalSeq))
    else none
  | .poll =>
    if h.attached = true ∧ h.stage = .idle then
      some (some (.load signalSeq), h.poll (m signalSeq))
    else none
  | .side =>
    match h.stage with
    | .seq v => some (some (.load signal), { h with stage := .side v (m signal) })
    | _ => none
  | .tick =>
    match h.stage with
    | .side v d => some (some (.load signalTick), h.finish v d (m signalTick))
    | _ => none
  | .poke a v =>
    if (inputBase ≤ a ∧ a < outputBase) ∧ a ≠ cfgRestart then some (some (.store a v), h) else none

/-- Scripts for the poller. -/
def pollerDirector (s : Strategy) : Director s poller PollerCommand where
  perform k h m := k.perform h m
  ok _ := true
  perform_act {k h m x h'} hk := by
    cases k with
    | attach =>
      simp only [PollerCommand.perform] at hk
      split_ifs at hk with hcan
      cases hk
      exact .attach hcan.1 hcan.2
    | poll =>
      simp only [PollerCommand.perform] at hk
      split_ifs at hk with hcan
      cases hk
      exact .seq hcan.1 hcan.2
    | side =>
      simp only [PollerCommand.perform] at hk
      split at hk
      · next v hstage =>
        cases hk
        exact .side hstage
      · cases hk
    | tick =>
      simp only [PollerCommand.perform] at hk
      split at hk
      · next v side hstage =>
        cases hk
        exact .tick hstage
      · cases hk
    | poke a v =>
      simp only [PollerCommand.perform] at hk
      split_ifs at hk with hcan
      cases hk
      exact .other a v hcan.1 hcan.2
  ok_permitted _ _ _ := trivial

/-- The stores of a quote, as commands. -/
def PollerCommand.quote (seq bid ask : Word) : List (Line PollerCommand) :=
  [.host (.poke tickSeq (seq - 1)), .host (.poke Fmma.bid bid), .host (.poke Fmma.ask ask),
    .host (.poke tickSeq seq)]

/-- A host that has polled nothing. -/
def Poller.cold : Poller := ⟨⟨0, 0, 0⟩, .idle, false, 0, 0, [], false, ⟨0, 0⟩, 0, 0, []⟩

/-- A RAM with a limit of five lots and trading enabled. -/
def fiveLots (a : Addr) : Word := if a = cfgMaxPos then 5 else if a = cfgEnable then 1 else 0

theorem Poller.starts_cold (s : Strategy) : Poller.Starts (s.install fiveLots) Poller.cold := by
  simp [Poller.Starts, Poller.cold, fiveLots]

/-- Two decisions; the host polls once, after both. -/
theorem signals_delivered_missed : ∃ h : Poller,
    h.records = [(2, ⟨signalSell, 6, 2, 1⟩)] ∧
      h.decisions[1]? = some ⟨signalSell, 6⟩ := by
  obtain ⟨t, c, h, hr, -, hP⟩ := ((pollerDirector .trading).restrict
    (fun _ _ _ _ => True) Poller.InTime (fun _ => true)
    fun _ _ _ _ => trivial).exists_reachable timelyPoller_onlyShared (fun _ _ h => h)
    Poller.Starts (m := fiveLots) (Poller.starts_cold .trading)
    ([.cpu 12, .host .attach] ++ PollerCommand.quote 2 100 100 ++ [.cpu 20] ++
      PollerCommand.quote 4 90 90 ++ [.cpu 30] ++ PollerCommand.quote 6 120 120 ++
      [.cpu 30, .host .poll, .host .side, .host .tick])
    (P := fun a => a.2.records = [(2, ⟨signalSell, 6, 2, 1⟩)]) (by decide +kernel)
  have hrecords : h.records = [(2, ⟨signalSell, 6, 2, 1⟩)] := of_decide_eq_true hP
  refine ⟨h, hrecords, ?_⟩
  exact ((signals_delivered .trading hr).1 (2, ⟨signalSell, 6, 2, 1⟩)
    (hrecords ▸ List.mem_singleton_self _)).2.2

/-- **A record of two decisions.** The program publishes its second decision after the host has
loaded `SIGNAL_SEQ` of the first; the record has the counter of the first and the side and tick of
the second. -/
theorem not_signals_delivered : ¬∀ (c : Cpu) (h : Poller),
    cpuMachine.Reachable poller (boot .trading Poller.Starts) (c, h) →
      ∀ p ∈ h.records, h.decisions[p.1 - 1]? = some ⟨p.2.side, p.2.tick⟩ := by
  intro hall
  obtain ⟨t, c, h, hr, -, hP⟩ := (pollerDirector .trading).exists_reachable
    poller_onlyShared (fun _ _ h => h) Poller.Starts (m := fiveLots)
    (Poller.starts_cold .trading)
    ([.cpu 12, .host .attach] ++ PollerCommand.quote 2 100 100 ++ [.cpu 20] ++
      PollerCommand.quote 4 90 90 ++ [.cpu 30, .host .poll] ++ PollerCommand.quote 6 120 120 ++
      [.cpu 30, .host .side, .host .tick])
    (P := fun a => a.2.records = [(1, ⟨signalSell, 6, 1, 0⟩)] ∧
      a.2.decisions = [⟨signalBuy, 4⟩, ⟨signalSell, 6⟩]) (by decide +kernel)
  obtain ⟨hrecords, hdec⟩ := of_decide_eq_true hP
  change h.records = _ at hrecords
  change h.decisions = _ at hdec
  have hrecord := hall c h hr (1, ⟨signalSell, 6, 1, 0⟩) (hrecords ▸ List.mem_singleton_self _)
  rw [hdec] at hrecord
  exact absurd hrecord (by decide)

end Fmma
