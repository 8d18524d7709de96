import Fmma.Board.Seqlock

/-!
# The first quote after `INIT`

`INIT` zeroes the anchor and the last tick. Nothing clears the market-data block, and the driver
goes on from the counter it finds there: a quote left behind by an earlier run looks like a new
one to the program, which takes it as its anchor. A `Feed` is the publisher with the quote found
in the RAM and with a count of the ticks the program has committed that were published since. A
decision then takes two of them, as long as the program does not commit the leftover, or gets no
anchor from it (`Feed.FromFeed`).
-/

namespace Fmma

/-- The host as a publisher, with what it found in the RAM and what the program has consumed. -/
structure Feed where
  pub : Publisher
  /-- The counter and the prices in the RAM in the beginning. -/
  leftover : Tick
  /-- The program's first reading of `TICK_SEQ` in this pass. -/
  first : Word
  /-- How many ticks published since the beginning the program has committed. -/
  consumed : Nat

namespace Feed

/-- What the host does: it publishes, and stores other words, but asks for no restart. -/
def Act (h : Feed) (m : Addr → Word) (x : Option (Access Addr Word)) (h' : Feed) : Prop :=
  ∃ p, h.pub.Act m x p ∧ h' = { h with pub := p } ∧ ∀ v, x ≠ some (.store cfgRestart v)

/-- What an access of the CPU says: the program commits a tick where its second reading of
`TICK_SEQ` is the first one, and it is one of the feed's if a publish has been completed. -/
def observe (s : Strategy) (h : Feed) (i : Addr) (x : Access Addr Word) (m : Addr → Word) : Feed :=
  { h with
    pub := (publisher s).observe h.pub i x m
    first := if x = .load tickSeq ∧ i = s.firstRead then m tickSeq else h.first
    consumed :=
      if x = .load tickSeq ∧ i = s.secondRead ∧ m tickSeq = h.first ∧ 2 ≤ h.pub.published.length
      then h.consumed + 1 else h.consumed }

/-- A leftover that gives no anchor: its counter is the program's last tick or that of a publish
under way, or the book is one-sided, or its sum is the mark for no anchor. -/
def Harmless (s : Strategy) (q : Tick) : Prop :=
  q.seq = 0 ∨ q.seq &&& 1 ≠ 0 ∨ q.bid = 0 ∨ q.ask = 0 ∨ s = .trading ∧ q.bid + q.ask = 0

/-- **The condition on a run**: while no publish has been completed, the second reading of
`TICK_SEQ` does not find the leftover counter, unless the leftover is harmless. -/
def FromFeed (s : Strategy) (h : Feed) (i : Addr) (x : Access Addr Word) (m : Addr → Word) : Prop :=
  x = .load tickSeq → i = s.secondRead → h.pub.published.length = 1 →
    m tickSeq = h.leftover.seq → Harmless s h.leftover

/-- The CPU is in `INIT`, and the host has just taken over. -/
def Starts (m : Addr → Word) (h : Feed) : Prop :=
  h.pub.Starts m ∧ h.pub.since = 0 ∧ h.leftover = h.pub.latest ∧ h.consumed = 0 ∧ m cfgRestart = 0

end Feed

/-- The host as a publisher beside a program in `INIT`. -/
def feed (s : Strategy) : Host Feed where
  act := Feed.Act
  observe h i x m := h.observe s i x m

/-- The same, in runs that meet the condition. -/
def cleanFeed (s : Strategy) : Host Feed :=
  (feed s).restrict (Feed.FromFeed s) fun _ _ _ => True

namespace Feed

/-! ### The invariant -/

/-- No publish has been completed, and none is under way. -/
def Untouched (m : Addr → Word) (h : Feed) : Prop :=
  h.pub.published.length = 1 ∧ m tickSeq &&& 1 = 0

/-- As long as the program has committed no tick of the feed, it has no anchor. -/
structure Unanchored (q : Tick) (r : Regs) : Prop where
  anchor : r.anchor = 0
  tick : r.tick = 0 ∨ r.tick = q.seq

/-- The program has read the counter `seq` for the first time in this pass. -/
structure Sampled (r : Regs) (h : Feed) (seq : Word) : Prop where
  first : seq = h.first
  new : seq ≠ r.tick
  even : seq &&& 1 = 0
  unanchored : h.consumed = 0 → Unanchored h.leftover r

/-- **The program's invariant**, point by point. -/
def Body (s : Strategy) (t : Thread) (m : Addr → Word) (h : Feed) : Prop :=
  match t.point with
  | .bid seq => h.Sampled t.regs seq
  | .ask seq => h.Sampled t.regs seq ∧ (h.Untouched m → t.regs.bid = h.leftover.bid)
  | .tickSeq2 seq => h.Sampled t.regs seq ∧
      (h.Untouched m → t.regs.bid = h.leftover.bid ∧ t.regs.ask = h.leftover.ask)
  | .commit seq => (h.consumed ≤ 1 → t.regs.anchor = 0) ∧
      (h.consumed = 0 → seq = h.leftover.seq ∧
        (t.regs.bid = 0 ∨ t.regs.ask = 0 ∨ s = .trading ∧ t.regs.bid + t.regs.ask = 0))
  | .thresh _ => 2 ≤ h.consumed
  | .enable _ => 2 ≤ h.consumed
  | .maxPos _ => 2 ≤ h.consumed
  | .signal _ => 2 ≤ h.consumed
  | .signalTick => 2 ≤ h.consumed
  | .status => 2 ≤ h.consumed
  | .signalSeq => 2 ≤ h.consumed
  | .signalSeqStore _ => 2 ≤ h.consumed
  | .rejectStatus _ => 2 ≤ h.consumed
  | .rejects => 2 ≤ h.consumed
  | .rejectsStore _ => 2 ≤ h.consumed
  | .skew => 1 ≤ h.consumed
  | .halfSpread _ => 1 ≤ h.consumed
  | .quoteBid => 1 ≤ h.consumed
  | .quoteAsk => 1 ≤ h.consumed
  | _ => h.consumed = 0 → Unanchored h.leftover t.regs

/-- Before the first completed publish, the leftover is what the RAM and the host hold. -/
structure Beginning (h : Feed) : Prop where
  listed : 1 ≤ h.pub.published.length
  latest : h.pub.published.length = 1 → h.pub.latest = h.leftover
  since : h.pub.published.length = 1 → h.pub.since = 0
  consumed : h.pub.published.length = 1 → h.consumed = 0

/-- The invariant of the board. -/
structure Inv (s : Strategy) (t : Thread) (m : Addr → Word) (h : Feed) : Prop where
  restart : m cfgRestart = 0
  running : t.point ≠ .clearRestart
  writing : h.pub.Writing m
  beginning : h.Beginning
  body : h.Body s t m

variable {s : Strategy} {t : Thread} {m m' : Addr → Word} {h h' : Feed}
  {x : Option (Access Addr Word)} {r : Regs}

/-- `INIT` begins with the invariant. -/
theorem Starts.inv (hs : h.Starts m) : Inv s (Thread.initial s r) m h := by
  obtain ⟨⟨htodo, hnext, hlatest, hlist⟩, hsince, hleft, hconsumed, hrestart⟩ := hs
  have hlen : h.pub.published.length = 1 := by
    rw [hlist]
    rfl
  refine ⟨hrestart, by rintro ⟨⟩, ⟨.idle htodo ?_ ?_ ?_ ?_, fun hne => absurd htodo hne, ?_, ?_⟩,
    ⟨hlen.ge, fun _ => hleft.symm, fun _ => hsince, fun _ => hconsumed⟩,
    fun _ => ⟨rfl, .inl rfl⟩⟩
  · rw [hlatest]
  · rw [hnext, hlatest]
  · rw [hlatest]
  · rw [hlatest]
  · rw [if_pos htodo, hnext, hlatest]
  · rw [hlist]
    exact List.mem_singleton_self _

/-- An untouched RAM holds the leftover. -/
theorem Inv.untouched (hI : Inv s t m h) (hu : h.Untouched m) :
    m tickSeq = h.leftover.seq ∧ m bid = h.leftover.bid ∧ m ask = h.leftover.ask := by
  rw [← hI.beginning.latest hu.1]
  exact hI.writing.stable hu.2

/-! ### The host's steps -/

/-- What the host does to the record. -/
theorem length_le_of_act {p p' : Publisher} (hx : p.Act m x p') :
    p.published.length ≤ p'.published.length ∧
      (p'.published.length = p.published.length → p'.latest = p.latest ∧ p'.since = p.since) := by
  cases hx with
  | publish => exact ⟨le_rfl, fun _ => ⟨rfl, rfl⟩⟩
  | other => exact ⟨le_rfl, fun _ => ⟨rfl, rfl⟩⟩
  | @store a v rest htodo hin =>
    cases rest with
    | nil =>
      refine ⟨Nat.le_succ _, fun heq => absurd heq ?_⟩
      exact Nat.succ_ne_self _
    | cons q rest => exact ⟨le_rfl, fun _ => ⟨rfl, rfl⟩⟩

/-- The host touches the RAM for good. -/
theorem Inv.untouched_of_act (hI : Inv s t m h) {p : Publisher} (hx : h.pub.Act m x p)
    (hu : Untouched (Access.applyOpt m x) { h with pub := p }) : h.Untouched m := by
  obtain ⟨hlen, heven⟩ := hu
  change p.published.length = 1 at hlen
  obtain ⟨hle, hsame⟩ := length_le_of_act hx
  have hone := hI.beginning.listed
  have hlen' : h.pub.published.length = 1 := by omega
  have hsince : p.since = 0 := by
    rw [(hsame (hlen.trans hlen'.symm)).2]
    exact hI.beginning.since hlen'
  exact ⟨hlen', ((hI.writing.later hx).clean heven hsince).symm ▸ heven⟩

/-- Everything the host does keeps the invariant. -/
theorem Inv.act (hI : Inv s t m h) (hx : Act h m x h') : Inv s t (Access.applyOpt m x) h' := by
  obtain ⟨p, hx, rfl, hno⟩ := hx
  obtain ⟨hle, hsame⟩ := length_le_of_act hx
  have hlen : p.published.length = 1 → h.pub.published.length = 1 := by
    have := hI.beginning.listed
    omega
  refine ⟨?_, hI.running, hI.writing.act hx, ⟨hI.beginning.listed.trans hle, fun h1 => ?_,
    fun h1 => ?_, fun h1 => hI.beginning.consumed (hlen h1)⟩, ?_⟩
  · cases x with
    | none => exact hI.restart
    | some x =>
      refine (Access.apply_of_ne ?_).trans hI.restart
      rintro a v rfl rfl
      exact hno v rfl
  · exact (hsame (h1.trans (hlen h1).symm)).1.trans (hI.beginning.latest (hlen h1))
  · exact (hsame (h1.trans (hlen h1).symm)).2.trans (hI.beginning.since (hlen h1))
  · have hbody := hI.body
    have hu := hI.untouched_of_act hx
    obtain ⟨point, r⟩ := t
    cases point with
    | bid seq => exact ⟨hbody.first, hbody.new, hbody.even, hbody.unanchored⟩
    | ask seq =>
      exact ⟨⟨hbody.1.first, hbody.1.new, hbody.1.even, hbody.1.unanchored⟩,
        fun h => hbody.2 (hu h)⟩
    | tickSeq2 seq =>
      exact ⟨⟨hbody.1.first, hbody.1.new, hbody.1.even, hbody.1.unanchored⟩,
        fun h => hbody.2 (hu h)⟩
    | _ => exact hbody

/-! ### The program's steps -/

section Steps

variable {y : Access Addr Word} {i : Addr}

/-- Only the two readings of the counter are observed. -/
theorem observe_of_ne (hy : y ≠ .load tickSeq) : h.observe s i y m = h := by
  simp only [observe, hy, false_and, if_false, Publisher.observe_of_ne hy]

/-- A store is not observed. -/
theorem observe_store {a : Addr} {v : Word} : h.observe s i (.store a v) m = h :=
  observe_of_ne (by rintro ⟨⟩)

/-- A load of the counter. -/
theorem pub_observe (s : Strategy) (h : Feed) (i : Addr) (y : Access Addr Word)
    (m : Addr → Word) :
    (h.observe s i y m).pub.published = h.pub.published ∧
      (h.observe s i y m).pub.latest = h.pub.latest ∧
      ((h.observe s i y m).pub.since = 0 ∨ (h.observe s i y m).pub.since = h.pub.since) := by
  simp only [observe, publisher]
  split_ifs
  · exact ⟨rfl, rfl, .inl rfl⟩
  · exact ⟨rfl, rfl, .inr rfl⟩

/-- The first ticks consumed are consumed after the first publish. -/
theorem Beginning.access (hb : h.Beginning) (i : Addr) (y : Access Addr Word) :
    (h.observe s i y m).Beginning := by
  obtain ⟨hpub, hlatest, hsince⟩ := h.pub_observe s i y m
  refine ⟨hpub ▸ hb.listed, fun h1 => ?_, fun h1 => ?_, fun h1 => ?_⟩
  · rw [hpub] at h1
    exact hlatest.trans (hb.latest h1)
  · rw [hpub] at h1
    rcases hsince with h0 | heq
    · exact h0
    · exact heq.trans (hb.since h1)
  · rw [hpub] at h1
    have hnot : ¬(y = .load tickSeq ∧ i = s.secondRead ∧ m tickSeq = h.first ∧
        2 ≤ h.pub.published.length) := by
      rintro ⟨-, -, -, h2⟩
      omega
    exact (if_neg hnot).trans (hb.consumed h1)

/-- **A tick is considered**: without an anchor it gives one, and a harmless leftover none. -/
theorem Body.consider {seq : Word}
    (hb : h.Body s ⟨.commit seq, r⟩ m) : h.Body s (s.consider { r with tick := seq }) m := by
  obtain ⟨hanchor, hleft⟩ := hb
  have hloop : ∀ {r' : Regs}, r'.tick = seq → (h.consumed = 0 → r'.anchor = 0) →
      h.Body s ⟨.loop, r'⟩ m :=
    fun ht ha h0 => ⟨ha h0, .inr (ht.trans (hleft h0).1)⟩
  have hkeep : h.consumed = 0 → r.anchor = 0 := fun h0 => hanchor (by omega)
  have hone : ¬r.bid = 0 → ¬r.ask = 0 → s ≠ .trading → 1 ≤ h.consumed := by
    intro hbid hask hs
    by_contra h0
    rcases (hleft (by omega)).2 with hz | hz | ⟨hz, -⟩
    · exact hbid hz
    · exact hask hz
    · exact hs hz
  have htwo : ¬r.anchor = 0 → 2 ≤ h.consumed := by
    intro ha
    by_contra h0
    exact ha (hanchor (by omega))
  cases s with
  | trading =>
    simp only [Strategy.consider]
    split_ifs with hbid hask hzero
    · exact hloop rfl hkeep
    · exact hloop rfl hkeep
    · refine hloop rfl fun h0 => ?_
      rcases (hleft h0).2 with hz | hz | ⟨-, hz⟩
      · exact absurd hz hbid
      · exact absurd hz hask
      · exact hz
    · exact htwo hzero
  | marketMaker =>
    simp only [Strategy.consider]
    split_ifs with hbid hask hzero
    · exact hloop rfl hkeep
    · exact hloop rfl hkeep
    · exact hone hbid hask (by rintro ⟨⟩)
    all_goals first | exact htwo hzero | exact hone hbid hask (by rintro ⟨⟩)

/-- The steps without an access. -/
theorem Inv.internal (hI : Inv s t m h) (hnone : t.access s = none) : Inv s (t.step s m) m h := by
  obtain ⟨hrestart, hrunning, hwriting, hbeginning, hbody⟩ := hI
  refine ⟨hrestart, Thread.resume_ne_clearRestart fun hp => ?_, hwriting, hbeginning, ?_⟩
  · rw [Thread.reads, hnone]
  · rw [Thread.step_none hnone]
    obtain ⟨point, r⟩ := t
    cases point with
    | loop => exact fun h0 => ⟨(hbody h0).anchor, (hbody h0).tick⟩
    | addFill b q =>
      exact fun h0 => ⟨(hbody h0).anchor, (hbody h0).tick⟩
    | commit seq => exact hbody.consider
    | _ => cases hnone

/-- The program commits the leftover only if it is harmless. -/
theorem Inv.commit {seq : Word} (hI : Inv s ⟨.tickSeq2 seq, r⟩ m h) (hseq : m tickSeq = seq)
    (hfeed : h.FromFeed s s.secondRead (.load tickSeq) m) :
    (h.observe s s.secondRead (.load tickSeq) m).Body s ⟨.commit seq, r⟩ m := by
  obtain ⟨hsampled, hprices⟩ := hI.body
  have hfirst : m tickSeq = h.first := hseq.trans hsampled.first
  by_cases hlen : 2 ≤ h.pub.published.length
  · have hobs : (h.observe s s.secondRead (.load tickSeq) m).consumed = h.consumed + 1 :=
      if_pos ⟨rfl, rfl, hfirst, hlen⟩
    refine ⟨fun h1 => (hsampled.unanchored ?_).anchor, fun h0 => ?_⟩
    · rw [hobs] at h1
      omega
    · rw [hobs] at h0
      omega
  · have hobs : (h.observe s s.secondRead (.load tickSeq) m).consumed = h.consumed :=
      if_neg fun hc => hlen hc.2.2.2
    have hone : h.pub.published.length = 1 := by
      have := hI.beginning.listed
      omega
    have hzero := hI.beginning.consumed hone
    have huntouched : h.Untouched m := ⟨hone, hseq ▸ hsampled.even⟩
    obtain ⟨hbid, hask⟩ := hprices huntouched
    obtain ⟨hleft, -, -⟩ := hI.untouched huntouched
    refine ⟨fun _ => (hsampled.unanchored hzero).anchor, fun _ => ⟨hseq.symm.trans hleft, ?_⟩⟩
    change r.bid = _ at hbid
    change r.ask = _ at hask
    change r.bid = 0 ∨ r.ask = 0 ∨ s = .trading ∧ r.bid + r.ask = 0
    rw [hbid, hask]
    rcases hfeed rfl rfl hone hleft with h0 | hodd | hprice
    · -- a zero counter is the program's own zeroed tick
      have htick := (hsampled.unanchored hzero).tick
      rw [h0, or_self] at htick
      exact absurd (hseq.symm.trans (hleft.trans (h0.trans htick.symm))) hsampled.new
    · rw [← hleft, hseq] at hodd
      exact absurd hsampled.even hodd
    · exact hprice

/-- The accesses of the program keep its invariant. -/
theorem Body.access (hI : Inv s t m h) (hy : t.access s = some y)
    (hfeed : h.FromFeed s (s.pcOf t.point) y m) :
    (h.observe s (s.pcOf t.point) y m).Body s (t.step s m) (y.apply m) := by
  have hbody := hI.body
  obtain ⟨point, r⟩ := t
  cases point with
  | tickSeq =>
    cases hy
    have hne : s.firstRead ≠ s.secondRead := by cases s <;> decide
    have hfirst : (h.observe s s.firstRead (.load tickSeq) m).first = m tickSeq :=
      if_pos ⟨rfl, rfl⟩
    have hconsumed : (h.observe s s.firstRead (.load tickSeq) m).consumed = h.consumed :=
      if_neg fun hc => hne hc.2.1
    have hkept : (h.observe s s.firstRead (.load tickSeq) m).consumed = 0 →
        Unanchored h.leftover r := fun h0 => hbody (hconsumed ▸ h0)
    rw [Thread.step_load rfl]
    simp only [Thread.resume]
    -- only an even counter that is a new one is followed up
    split_ifs with htick heven
    · exact hkept
    · exact ⟨hfirst.symm, htick, heven, hkept⟩
    · exact hkept
  | bid seq =>
    cases hy
    rw [observe_of_ne (by decide)]
    exact ⟨⟨hbody.first, hbody.new, hbody.even, fun h0 =>
      ⟨(hbody.unanchored h0).anchor, (hbody.unanchored h0).tick⟩⟩, fun hu => (hI.untouched hu).2.1⟩
  | ask seq =>
    cases hy
    rw [observe_of_ne (by decide)]
    exact ⟨⟨hbody.1.first, hbody.1.new, hbody.1.even, fun h0 =>
      ⟨(hbody.1.unanchored h0).anchor, (hbody.1.unanchored h0).tick⟩⟩,
      fun hu => ⟨hbody.2 hu, (hI.untouched hu).2.2⟩⟩
  | tickSeq2 seq =>
    cases hy
    rw [Thread.step_load rfl]
    simp only [Thread.resume]
    split_ifs with hseq
    · exact hI.commit hseq hfeed
    · have hconsumed : (h.observe s s.secondRead (.load tickSeq) m).consumed = h.consumed :=
        if_neg fun hc => hseq (hc.2.2.1.trans hbody.1.first.symm)
      exact fun h0 => hbody.1.unanchored (hconsumed ▸ h0)
  | commit seq => cases hy
  | loop => cases hy
  | addFill b q => cases hy
  | clearRestart => exact absurd rfl hI.running
  | initPosition =>
    cases hy
    rw [observe_of_ne (by decide)]
    exact fun h0 => ⟨(hbody h0).anchor, (hbody h0).tick⟩
  | initFill =>
    cases hy
    rw [observe_of_ne (by decide)]
    exact fun h0 => ⟨(hbody h0).anchor, (hbody h0).tick⟩
  | clear i =>
    cases hy
    rw [observe_store]
    by_cases hlt : i.val < 6
    · have hstep : Thread.step s ⟨.clear i, r⟩ m = ⟨.clear ⟨i + 1, by omega⟩, r⟩ := dif_pos hlt
      rw [hstep]
      exact hbody
    · have hstep : Thread.step s ⟨.clear i, r⟩ m = ⟨.setStatus, r⟩ := dif_neg hlt
      rw [hstep]
      exact hbody
  | restart =>
    cases hy
    rw [observe_of_ne (by decide), Thread.step_load rfl]
    simp only [Thread.resume]
    split_ifs <;> exact hbody
  | fillSeq =>
    cases hy
    rw [observe_of_ne (by decide), Thread.step_load rfl]
    simp only [Thread.resume]
    split_ifs
    · exact hbody
    · exact fun h0 => ⟨(hbody h0).anchor, (hbody h0).tick⟩
  | thresh sum =>
    cases hy
    have h2 : 2 ≤ h.consumed := hbody
    have hloop : ∀ {r' : Regs}, h.Body s ⟨.loop, r'⟩ m := fun h0 => by omega
    rw [observe_of_ne (by decide), Thread.step_load rfl]
    simp only [Thread.resume, Strategy.bandTest]
    split_ifs
    · exact hbody
    · exact hbody
    · exact hloop
  | enable side =>
    cases hy
    rw [observe_of_ne (by decide), Thread.step_load rfl]
    simp only [Thread.resume]
    split_ifs <;> exact hbody
  | maxPos side =>
    cases hy
    rw [observe_of_ne (by decide), Thread.step_load rfl]
    simp only [Thread.resume]
    split_ifs <;> exact hbody
  | signal side =>
    cases hy
    rw [observe_store]
    exact hbody
  | signalSeqStore v =>
    cases hy
    have h2 : 2 ≤ h.consumed := hbody
    rw [observe_store]
    exact fun h0 => by omega
  | rejectsStore v =>
    cases hy
    have h2 : 2 ≤ h.consumed := hbody
    rw [observe_store]
    exact fun h0 => by omega
  | quoteAsk =>
    cases hy
    have h1 : 1 ≤ h.consumed := hbody
    rw [observe_store]
    exact fun h0 => by omega
  | _ =>
    cases hy
    first | rw [observe_store] | rw [observe_of_ne (by decide)]
    exact hbody

/-- The accesses of the program keep the invariant. -/
theorem Inv.access (hI : Inv s t m h) (hy : t.access s = some y)
    (hfeed : h.FromFeed s (s.pcOf t.point) y m) :
    Inv s (t.step s m) (y.apply m) (h.observe s (s.pcOf t.point) y m) := by
  refine ⟨Strategy.apply_cfgRestart hy hI.restart, Thread.resume_ne_clearRestart fun hp => ?_,
    hI.writing.access hy, hI.beginning.access _ y, .access hI hy hfeed⟩
  have hrestart := hI.restart
  obtain ⟨point, r⟩ := t
  cases hp
  exact hrestart

end Steps

end Feed

theorem feed_onlyShared (s : Strategy) : (feed s).OnlyShared := by
  rintro h m x h' ⟨p, hx, -⟩
  exact publisher_onlyShared s _ m x p hx

theorem cleanFeed_onlyShared (s : Strategy) : (cleanFeed s).OnlyShared :=
  fun h m x h' hx => feed_onlyShared s h m x h' hx.1

/-- Where a program publishes a decision or counts a suppressed one. -/
def Strategy.countingAt (s : Strategy) : List Addr :=
  [.signalSeqStore 0, .rejectsStore 0].map s.pcOf

/-- **The first quote does not trade.** In every run that meets the condition, a decision, whether
published or suppressed, comes after two committed ticks that were published since `INIT`. -/
theorem first_quote_never_trades (s : Strategy) {c : Cpu} {h : Feed}
    (hr : cpuMachine.Reachable (cleanFeed s) (boot s Feed.Starts) (c, h))
    (hpc : c.pc ∈ s.countingAt) : 2 ≤ h.consumed := by
  obtain ⟨t, hsim, -, hI⟩ := board_invariant s (cleanFeed_onlyShared s)
    (I := fun t m h => Feed.Inv s t m h) (fun r m h hs => hs.inv)
    (fun t m h hI hnone => hI.internal hnone)
    (fun t m h x hI hx hp => hI.access hx hp.2)
    (fun t m h x h' hI hx => hI.act hx.1)
    (fun t m h h' r _ hreset => hreset.elim) hr
  obtain ⟨p, hp, hpc⟩ := List.mem_map.mp hpc
  have hcorr := hsim.corr (by
    rw [← hpc]
    fin_cases hp <;> cases s <;> decide)
  have hplace := hcorr.place_eq (p := p) (by fin_cases hp <;> cases s <;> trivial) hpc.symm
  have hbody := hI.body
  obtain ⟨point, r⟩ := t
  fin_cases hp <;> cases point <;> cases hplace <;> exact hbody

/-! ### Concrete runs -/

/-- Scripts for the feed. -/
def feedDirector (s : Strategy) : Director s (feed s) PublisherCommand where
  perform k h _ :=
    match k.perform h.pub with
    | some (x, p) =>
      if x.elim true fun y => y.addr ≠ cfgRestart then some (x, { h with pub := p }) else none
    | none => none
  ok _ := true
  perform_act {k h m x h'} hk := by
    split at hk
    · next x' p hx =>
      split_ifs at hk with hne
      cases hk
      refine ⟨p, (publisherDirector s).perform_act (k := k) (m := m) hx, rfl, ?_⟩
      rintro v rfl
      exact absurd hne (by simp)
    · cases hk
  ok_permitted _ _ _ := trivial

/-- A feed that has published nothing, beside a RAM with a quote in it. -/
def Feed.cold (q : Tick) : Feed := ⟨⟨⟨q.seq, 0, 0⟩, [], q, q, [q], q, 0⟩, q, 0, 0⟩

/-- The RAM with the quote 100/100 of an earlier run in it. -/
def usedRam (a : Addr) : Word :=
  if a = tickSeq then 2 else if a = bid then 100 else if a = ask then 100 else 0

/-- Two quotes are published beside an empty RAM; the second one gives a decision. -/
theorem first_quote_never_trades_second : ∃ (c : Cpu) (h : Feed),
    c.pc ∈ Strategy.trading.countingAt ∧ h.pub.latest = ⟨4, 50, 50⟩ ∧ 2 ≤ h.consumed := by
  obtain ⟨t, c, h, hr, hcorr, hP⟩ := ((feedDirector .trading).restrict
    (Feed.FromFeed .trading) (fun _ _ _ => True)
    (fun a => a.2.leftover.seq = 0) fun a h0 _ _ _ _ _ _ => .inl (of_decide_eq_true h0)
    ).exists_reachable (cleanFeed_onlyShared .trading) (fun _ _ h => h) Feed.Starts
    (m := fun _ => 0) (h := .cold ⟨0, 0, 0⟩)
    (by simp [Feed.Starts, Publisher.Starts, Feed.cold])
    ([.cpu 12, .host (.publish 100 100 1 1)] ++ List.replicate 6 (.host .store) ++
      [.cpu 20, .host (.publish 50 50 1 1)] ++ List.replicate 6 (.host .store) ++ [.cpu 11])
    (P := fun a => (a.1.1.point = .rejectsStore 1) ∧ a.2.pub.latest = ⟨4, 50, 50⟩)
    (by decide +kernel)
  obtain ⟨hpoint, hlatest⟩ := of_decide_eq_true hP
  change h.pub.latest = _ at hlatest
  have hpc : c.pc ∈ Strategy.trading.countingAt := by
    rw [hcorr.pc, hpoint]
    decide
  exact ⟨c, h, hpc, hlatest, first_quote_never_trades .trading hr hpc⟩

/-- **A quote of an earlier run trades.** `trading.asm` takes the 100/100 it finds in the RAM as
its anchor, and the first quote of the feed gives a decision. -/
theorem not_first_quote_never_trades : ¬∀ (c : Cpu) (h : Feed),
    cpuMachine.Reachable (feed .trading) (boot .trading Feed.Starts) (c, h) →
      c.pc ∈ Strategy.trading.countingAt → 2 ≤ h.consumed := by
  intro hall
  obtain ⟨t, c, h, hr, hcorr, hP⟩ := (feedDirector .trading).exists_reachable
    (feed_onlyShared .trading) (fun _ _ h => h) Feed.Starts (m := usedRam)
    (h := .cold ⟨2, 100, 100⟩)
    (by simp [Feed.Starts, Publisher.Starts, Feed.cold, usedRam])
    ([.cpu 40, .host (.publish 50 50 1 1)] ++ List.replicate 6 (.host .store) ++ [.cpu 13])
    (P := fun a => a.1.1.point = .rejectsStore 1 ∧ a.2.consumed = 1)
    (by decide +kernel)
  obtain ⟨hpoint, hconsumed⟩ := of_decide_eq_true hP
  change h.consumed = 1 at hconsumed
  have hpc : c.pc ∈ Strategy.trading.countingAt := by
    rw [hcorr.pc, hpoint]
    decide
  have h2 := hall c h hr hpc
  omega

end Fmma
