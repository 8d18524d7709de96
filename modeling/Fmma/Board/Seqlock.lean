import Fmma.Board

/-!
# The market-data block: one writer, one reader, a sequence lock

`fmma_fpga_publish_tick` stores an odd counter, the prices and the sizes, and an even counter;
the programs read the counter, the prices and the counter again, and use the prices when the
two readings are equal and even. A `Publisher` is the host with a record of its publishes, and
the theorem is that a committed tick is one completed publish, of which counter and prices both
are, as long as the counter does not wrap around between the two readings.
-/

namespace Fmma

/-- One publish: the even counter it ends with, and its prices. -/
structure Tick where
  seq : Word
  bid : Word
  ask : Word
  deriving DecidableEq

/-- The host as a publisher, with the record of the run. -/
structure Publisher where
  fpga : Fpga
  /-- The stores of the call under way. -/
  todo : List (Addr × Word)
  /-- The publish under way. -/
  current : Tick
  /-- The last completed publish; in the beginning, the words found in the RAM. -/
  latest : Tick
  /-- All completed publishes, and the words found in the RAM. -/
  published : List Tick
  /-- The last completed publish when the CPU last read the counter for the first time. -/
  sampled : Tick
  /-- How many publishes completed since. -/
  since : Nat

namespace Publisher

/-- The host begins a call of `publish_tick`. -/
def publish (h : Publisher) (bid ask bidSize askSize : Word) : Publisher :=
  { h with
    todo := (h.fpga.publishTick bid ask bidSize askSize).1
    fpga := (h.fpga.publishTick bid ask bidSize askSize).2
    current := ⟨(h.fpga.publishTick bid ask bidSize askSize).2.tickSeq, bid, ask⟩ }

/-- The host has made a store of the call; the last one completes the publish. -/
def stored (h : Publisher) : List (Addr × Word) → Publisher
  | [] => { h with
      todo := []
      latest := h.current
      published := h.current :: h.published
      since := h.since + 1 }
  | rest => { h with todo := rest }

/-- What the host does: calls of `publish_tick`, one after the other, store by store, and any
stores to other words of the shared blocks. -/
inductive Act : Publisher → (Addr → Word) → Option (Access Addr Word) → Publisher → Prop
  | publish {h : Publisher} {m : Addr → Word} (bid ask bidSize askSize : Word)
    (hidle : h.todo = []) : Act h m none (h.publish bid ask bidSize askSize)
  | store {h : Publisher} {m : Addr → Word} {a : Addr} {v : Word} {rest : List (Addr × Word)}
    (htodo : h.todo = (a, v) :: rest) (hin : inputBase ≤ a) :
    Act h m (some (.store a v)) (h.stored rest)
  | other {h : Publisher} {m : Addr → Word} (a : Addr) (v : Word) (hin : inputBase ≤ a)
    (hne : a ≠ tickSeq ∧ a ≠ bid ∧ a ≠ ask) : Act h m (some (.store a v)) h

end Publisher

/-- Where a program reads the counter for the first time in a pass. -/
def Strategy.firstRead (s : Strategy) : Addr := s.pcOf .tickSeq

/-- Where a program reads the counter again. -/
def Strategy.secondRead (s : Strategy) : Addr := s.pcOf (.tickSeq2 0)

/-- Where a program executes `MOV R11, R7`. -/
def Strategy.commitAt (s : Strategy) : Addr := s.pcOf (.commit 0)

/-- The host as a publisher beside a strategy program; the counter does not wrap around between
the two readings of one pass. -/
def publisher (s : Strategy) : Host Publisher where
  act := Publisher.Act
  observe h i x _ :=
    if x = .load tickSeq ∧ i = s.firstRead then { h with sampled := h.latest, since := 0 } else h
  permits h i x _ := x = .load tickSeq → i = s.secondRead → h.since < 2 ^ 31

/-- The host has just taken over: nothing is under way, the words in the RAM count as a publish,
and the handle continues from the counter found there, rounded down to even. -/
def Publisher.Starts (m : Addr → Word) (h : Publisher) : Prop :=
  h.todo = [] ∧ h.fpga.tickSeq = m tickSeq &&& ~~~1 ∧
    h.latest = ⟨m tickSeq, m bid, m ask⟩ ∧ h.published = [h.latest]

/-! ### Parity -/

/-- Rounding down to even. -/
theorem even_round (v : Word) : (v &&& ~~~1) &&& 1 = 0 := by
  rw [BitVec.and_assoc, show (~~~1 &&& 1 : Word) = 0 from by decide]
  exact BitVec.and_zero

/-- An even word is its own rounding. -/
theorem round_of_even {v : Word} (h : v &&& 1 = 0) : v &&& ~~~1 = v := by
  have hsplit : v &&& (1 ||| ~~~1) = v := by
    rw [show (1 ||| ~~~1 : Word) = BitVec.allOnes 32 from by decide, BitVec.and_allOnes]
  rw [BitVec.and_or_distrib_left, h] at hsplit
  exact BitVec.zero_or.symm.trans hsplit

theorem and_one_eq_zero_iff (v : Word) : v &&& 1 = 0 ↔ v.toNat % 2 = 0 := by
  rw [← BitVec.toNat_inj, BitVec.toNat_and]
  simp [Nat.and_one_is_mod]

theorem even_add_two {v : Word} (h : v &&& 1 = 0) : (v + 2) &&& 1 = 0 := by
  rw [and_one_eq_zero_iff] at h ⊢
  rw [BitVec.toNat_add, show (2 : Word).toNat = 2 from rfl]
  omega

theorem odd_pred {v : Word} (h : v &&& 1 = 0) : ¬(v - 1) &&& 1 = 0 := by
  rw [and_one_eq_zero_iff] at h ⊢
  rw [BitVec.toNat_sub, show (1 : Word).toNat = 1 from rfl]
  omega

theorem even_add_double {v : Word} (h : v &&& 1 = 0) (w : Word) : (v + 2 * w) &&& 1 = 0 := by
  rw [and_one_eq_zero_iff] at h ⊢
  rw [BitVec.toNat_add, BitVec.toNat_mul, show (2 : Word).toNat = 2 from rfl]
  omega

/-- A counter that moves by two for each publish comes back after `2 ^ 31` publishes, not
before. -/
theorem eq_zero_of_double {v : Word} {n : Nat} (h : v = v + 2 * BitVec.ofNat 32 n)
    (hn : n < 2 ^ 31) : n = 0 := by
  have hzero : 2 * BitVec.ofNat 32 n = 0 := by
    have := congrArg (· - v) h
    simpa [BitVec.add_comm v, BitVec.add_sub_cancel] using this.symm
  have hnat := congrArg BitVec.toNat hzero
  rw [BitVec.toNat_mul, BitVec.toNat_ofNat, show (2 : Word).toNat = 2 from rfl,
    show (0 : Word).toNat = 0 from rfl] at hnat
  omega

/-! ### The writer -/

namespace Publisher

/-- Where the writer is in its call, and what the counter and the prices in the RAM are. -/
inductive Phase (m : Addr → Word) (h : Publisher) : Prop
  | idle (ht : h.todo = []) (hseq : m tickSeq = h.latest.seq)
    (hnext : h.fpga.tickSeq = h.latest.seq &&& ~~~1)
    (hb : m Fmma.bid = h.latest.bid) (ha : m ask = h.latest.ask)
  | begun {v w : Word} (ht : h.todo = [(tickSeq, h.current.seq - 1), (Fmma.bid, h.current.bid),
      (ask, h.current.ask), (bidSize, v), (askSize, w), (tickSeq, h.current.seq)])
    (hseq : m tickSeq = h.latest.seq) (hb : m Fmma.bid = h.latest.bid) (ha : m ask = h.latest.ask)
  | odd {v w : Word} (ht : h.todo = [(Fmma.bid, h.current.bid), (ask, h.current.ask), (bidSize, v),
      (askSize, w), (tickSeq, h.current.seq)]) (hseq : m tickSeq = h.current.seq - 1)
  | bid {v w : Word} (ht : h.todo = [(ask, h.current.ask), (bidSize, v), (askSize, w),
      (tickSeq, h.current.seq)]) (hseq : m tickSeq = h.current.seq - 1)
    (hb : m Fmma.bid = h.current.bid)
  | ask {l : List (Addr × Word)} (hl : ∀ p ∈ l, p.1 = bidSize ∨ p.1 = askSize)
    (ht : h.todo = l ++ [(tickSeq, h.current.seq)]) (hseq : m tickSeq = h.current.seq - 1)
    (hb : m Fmma.bid = h.current.bid) (ha : m Fmma.ask = h.current.ask)

/-- **The writer's invariant.** -/
structure Writing (m : Addr → Word) (h : Publisher) : Prop where
  phase : h.Phase m
  current : h.todo ≠ [] → h.current.seq = (h.latest.seq &&& ~~~1) + 2
  next : h.fpga.tickSeq = if h.todo = [] then h.latest.seq &&& ~~~1 else h.current.seq
  listed : h.latest ∈ h.published

variable {m m' : Addr → Word} {h h' : Publisher} {x : Option (Access Addr Word)}

/-- An even counter means that nothing is being written: counter and prices are those of the
last completed publish. -/
theorem Writing.stable (hw : h.Writing m) (heven : m tickSeq &&& 1 = 0) :
    m tickSeq = h.latest.seq ∧ m bid = h.latest.bid ∧ m ask = h.latest.ask := by
  have hodd : ∀ p rest, h.todo = p :: rest → m tickSeq ≠ h.current.seq - 1 := by
    intro p rest ht heq
    refine odd_pred ?_ (heq ▸ heven)
    rw [hw.current (by rw [ht]; exact List.cons_ne_nil _ _)]
    exact even_add_two (even_round _)
  cases hw.phase with
  | idle ht hseq _ hb ha => exact ⟨hseq, hb, ha⟩
  | begun ht hseq hb ha => exact ⟨hseq, hb, ha⟩
  | odd ht hseq => exact absurd hseq (hodd _ _ ht)
  | bid ht hseq _ => exact absurd hseq (hodd _ _ ht)
  | @ask l _ ht hseq _ _ =>
    cases l with
    | nil => exact absurd hseq (hodd _ _ ht)
    | cons p l => exact absurd hseq (hodd _ _ ht)

/-- The writer's invariant is about three words. -/
theorem Writing.congr (hw : h.Writing m) (ht : m' tickSeq = m tickSeq) (hb : m' bid = m bid)
    (ha : m' ask = m ask) : h.Writing m' := by
  refine ⟨?_, hw.current, hw.next, hw.listed⟩
  cases hw.phase with
  | idle h₁ h₂ h₃ h₄ h₅ => exact .idle h₁ (ht.trans h₂) h₃ (hb.trans h₄) (ha.trans h₅)
  | begun h₁ h₂ h₃ h₄ => exact .begun h₁ (ht.trans h₂) (hb.trans h₃) (ha.trans h₄)
  | odd h₁ h₂ => exact .odd h₁ (ht.trans h₂)
  | bid h₁ h₂ h₃ => exact .bid h₁ (ht.trans h₂) (hb.trans h₃)
  | ask h₁ h₂ h₃ h₄ h₅ => exact .ask h₁ h₂ (ht.trans h₃) (hb.trans h₄) (ha.trans h₅)

/-- Storing another word. -/
theorem Writing.update (hw : h.Writing m) {a : Addr} (v : Word)
    (hne : a ≠ tickSeq ∧ a ≠ bid ∧ a ≠ ask) : h.Writing (Function.update m a v) :=
  hw.congr (Function.update_of_ne hne.1.symm _ _) (Function.update_of_ne hne.2.1.symm _ _)
    (Function.update_of_ne hne.2.2.symm _ _)

/-- **A store of the writer**, one phase after the other. -/
theorem Writing.stored (hw : h.Writing m) {a : Addr} {v : Word} {rest : List (Addr × Word)}
    (ht : h.todo = (a, v) :: rest) : (h.stored rest).Writing (Function.update m a v) := by
  have hcur := hw.current (by rw [ht]; exact List.cons_ne_nil _ _)
  have hnext : h.fpga.tickSeq = h.current.seq := by
    rw [hw.next, if_neg (by rw [ht]; exact List.cons_ne_nil _ _)]
  have hmiddle : ∀ b w l, rest = (b, w) :: l → (h.stored rest).Phase (Function.update m a v) →
      (h.stored rest).Writing (Function.update m a v) := by
    rintro b w l rfl hphase
    exact ⟨hphase, fun _ => hcur, hnext, hw.listed⟩
  cases hw.phase with
  | idle h₁ _ _ _ _ =>
    rw [h₁] at ht
    cases ht
  | begun h₁ _ _ _ =>
    rw [h₁] at ht
    cases ht
    exact hmiddle _ _ _ rfl (.odd rfl (Function.update_self _ _ _))
  | odd h₁ h₂ =>
    rw [h₁] at ht
    cases ht
    refine hmiddle _ _ _ rfl (.bid rfl ?_ (Function.update_self _ _ _))
    rw [Function.update_of_ne (by decide)]
    exact h₂
  | bid h₁ h₂ h₃ =>
    rw [h₁] at ht
    cases ht
    refine hmiddle _ _ _ rfl (.ask (l := [(bidSize, _), (askSize, _)]) ?_ rfl ?_ ?_ ?_)
    · simp
    · rw [Function.update_of_ne (by decide)]
      exact h₂
    · rw [Function.update_of_ne (by decide)]
      exact h₃
    · exact Function.update_self _ _ _
  | @ask l hl h₁ h₂ h₃ h₄ =>
    cases l with
    | nil =>
      -- the last store completes the publish
      rw [h₁] at ht
      cases ht
      have heven : h.current.seq &&& 1 = 0 := hcur ▸ even_add_two (even_round _)
      refine ⟨.idle rfl (Function.update_self _ _ _) ?_ ?_ ?_, fun hne => absurd rfl hne, ?_, ?_⟩
      · exact hnext.trans (round_of_even heven).symm
      · rw [Function.update_of_ne (by decide)]
        exact h₃
      · rw [Function.update_of_ne (by decide)]
        exact h₄
      · exact hnext.trans (round_of_even heven).symm
      · exact List.mem_cons_self
    | cons p l =>
      rw [h₁] at ht
      cases ht
      have hp := hl _ List.mem_cons_self
      have hne : a ≠ tickSeq ∧ a ≠ bid ∧ a ≠ Fmma.ask := by
        rcases hp with hp | hp <;> simp only at hp <;> subst hp <;> decide
      obtain ⟨q, l', hq⟩ : ∃ q l', l ++ [(tickSeq, h.current.seq)] = q :: l' := by
        cases l with
        | nil => exact ⟨_, _, rfl⟩
        | cons q l => exact ⟨_, _, rfl⟩
      refine hmiddle q.1 q.2 l' hq ?_
      have hstored : h.stored (l ++ [(tickSeq, h.current.seq)]) =
          { h with todo := l ++ [(tickSeq, h.current.seq)] } := by
        rw [hq]
        rfl
      change Phase _ (h.stored (l ++ [(tickSeq, h.current.seq)]))
      rw [hstored]
      refine .ask (fun p hp => hl p (List.mem_cons_of_mem _ hp)) rfl ?_ ?_ ?_
      · rw [Function.update_of_ne hne.1.symm]
        exact h₂
      · rw [Function.update_of_ne hne.2.1.symm]
        exact h₃
      · rw [Function.update_of_ne hne.2.2.symm]
        exact h₄

/-- Everything the host does keeps the writer's invariant. -/
theorem Writing.act (hw : h.Writing m) (hx : Act h m x h') :
    h'.Writing (Access.applyOpt m x) := by
  cases hx with
  | publish b a v w hidle =>
    have hseq : (h.latest.seq &&& ~~~1) + 1 + 1 = (h.latest.seq &&& ~~~1) + 2 := by
      rw [BitVec.add_assoc]
      rfl
    cases hw.phase with
    | idle h₁ h₂ h₃ h₄ h₅ =>
      refine ⟨.begun (v := v) (w := w) ?_ h₂ h₄ h₅, fun _ => ?_, ?_, hw.listed⟩
      · simp [Publisher.publish, Fpga.publishTick]
      · simp only [Publisher.publish, Fpga.publishTick, h₃, hseq]
      · rfl
    | begun h₁ => rw [hidle] at h₁; cases h₁
    | odd h₁ => rw [hidle] at h₁; cases h₁
    | bid h₁ => rw [hidle] at h₁; cases h₁
    | ask _ h₁ => rw [hidle] at h₁; simp at h₁
  | store ht _ => exact hw.stored ht
  | other a v _ hne => exact hw.update v hne

/-! ### The reader -/

/-- The CPU has read an even counter `seq` for the first time in this pass, and `since` says how
far the writer has moved on. -/
structure Reading (h : Publisher) (seq : Word) : Prop where
  counter : seq = h.sampled.seq
  even : seq &&& 1 = 0
  listed : h.sampled ∈ h.published
  moved : h.latest.seq = seq + 2 * BitVec.ofNat 32 h.since
  still : h.since = 0 → h.latest = h.sampled

/-- A price the CPU has read, if the writer has not touched it since the first reading. -/
def Clean (m : Addr → Word) (h : Publisher) (seq : Word) (P : Prop) : Prop :=
  m tickSeq = seq → h.since = 0 → P

/-- The CPU holds the prices of one completed publish, the one it sampled. -/
structure Snapshot (h : Publisher) (r : Regs) (seq : Word) : Prop where
  counter : seq = h.sampled.seq
  even : seq &&& 1 = 0
  listed : h.sampled ∈ h.published
  bid : r.bid = h.sampled.bid
  ask : r.ask = h.sampled.ask

/-- **The reader's invariant**, point by point. -/
def Reader (s : Strategy) (t : Thread) (m : Addr → Word) (h : Publisher) : Prop :=
  match t.point with
  | .bid seq => h.Reading seq
  | .ask seq => h.Reading seq ∧ h.Clean m seq (t.regs.bid = h.sampled.bid)
  | .tickSeq2 seq => h.Reading seq ∧
      h.Clean m seq (t.regs.bid = h.sampled.bid ∧ t.regs.ask = h.sampled.ask)
  | .commit seq => h.Snapshot t.regs seq
  | .thresh sum => h.Snapshot t.regs t.regs.tick ∧ sum = h.sampled.bid + h.sampled.ask
  | .enable _ => h.Snapshot t.regs t.regs.tick ∧
      (s = .trading → t.regs.anchor = h.sampled.bid + h.sampled.ask)
  | .maxPos _ => h.Snapshot t.regs t.regs.tick ∧
      (s = .trading → t.regs.anchor = h.sampled.bid + h.sampled.ask)
  | .signal _ => h.Snapshot t.regs t.regs.tick ∧
      (s = .trading → t.regs.anchor = h.sampled.bid + h.sampled.ask)
  | .signalTick => h.Snapshot t.regs t.regs.tick ∧
      (s = .trading → t.regs.anchor = h.sampled.bid + h.sampled.ask)
  | _ => True

/-- What the host's steps leave in place of the record. -/
structure Later (m m' : Addr → Word) (h h' : Publisher) : Prop where
  sampled : h'.sampled = h.sampled
  listed : ∀ t ∈ h.published, t ∈ h'.published
  moved : ∀ v : Word, v &&& 1 = 0 → h.latest.seq = v + 2 * BitVec.ofNat 32 h.since →
    h'.latest.seq = v + 2 * BitVec.ofNat 32 h'.since
  still : h'.since = 0 → h.since = 0 ∧ h'.latest = h.latest
  clean : m' tickSeq &&& 1 = 0 → h'.since = 0 → m tickSeq = m' tickSeq

theorem Later.reading (hl : Later m m' h h') {seq : Word} (hr : h.Reading seq) :
    h'.Reading seq := by
  refine ⟨hl.sampled ▸ hr.counter, hr.even, hl.sampled ▸ hl.listed _ hr.listed,
    hl.moved seq hr.even hr.moved, fun h0 => ?_⟩
  obtain ⟨h0', heq⟩ := hl.still h0
  rw [heq, hl.sampled, hr.still h0']

theorem Later.clean_of (hl : Later m m' h h') {seq : Word} (hr : h.Reading seq) {P : Prop}
    (hc : h.Clean m seq P) : h'.Clean m' seq P := by
  intro hseq h0
  exact hc ((hl.clean (hseq ▸ hr.even) h0).trans hseq) (hl.still h0).1

theorem Later.snapshot (hl : Later m m' h h') {r : Regs} {seq : Word} (hs : h.Snapshot r seq) :
    h'.Snapshot r seq :=
  ⟨hl.sampled ▸ hs.counter, hs.even, hl.sampled ▸ hl.listed _ hs.listed, hl.sampled ▸ hs.bid,
    hl.sampled ▸ hs.ask⟩

/-- The reader's invariant survives whatever the host does. -/
theorem Later.reader (hl : Later m m' h h') {s : Strategy} {t : Thread}
    (hr : h.Reader s t m) : h'.Reader s t m' := by
  obtain ⟨point, r⟩ := t
  cases point with
  | bid seq => exact hl.reading hr
  | ask seq =>
    refine ⟨hl.reading hr.1, ?_⟩
    rw [hl.sampled]
    exact hl.clean_of hr.1 hr.2
  | tickSeq2 seq =>
    refine ⟨hl.reading hr.1, ?_⟩
    rw [hl.sampled]
    exact hl.clean_of hr.1 hr.2
  | commit seq => exact hl.snapshot hr
  | thresh sum => exact ⟨hl.snapshot hr.1, hl.sampled ▸ hr.2⟩
  | enable _ => exact ⟨hl.snapshot hr.1, hl.sampled ▸ hr.2⟩
  | maxPos _ => exact ⟨hl.snapshot hr.1, hl.sampled ▸ hr.2⟩
  | signal _ => exact ⟨hl.snapshot hr.1, hl.sampled ▸ hr.2⟩
  | signalTick => exact ⟨hl.snapshot hr.1, hl.sampled ▸ hr.2⟩
  | _ => trivial

/-- What the host does is later. -/
theorem Writing.later (hw : h.Writing m) (hx : Act h m x h') :
    Later m (Access.applyOpt m x) h h' := by
  cases hx with
  | publish b a v w hidle =>
    exact ⟨rfl, fun _ h => h, fun _ _ h => h, fun h0 => ⟨h0, rfl⟩, fun _ _ => rfl⟩
  | other a v _ hne =>
    exact ⟨rfl, fun _ h => h, fun _ _ h => h, fun h0 => ⟨h0, rfl⟩,
      fun _ _ => (Function.update_of_ne hne.1.symm _ _).symm⟩
  | @store a v rest ht _ =>
    have hcur := hw.current (by rw [ht]; exact List.cons_ne_nil _ _)
    cases rest with
    | nil =>
      refine ⟨rfl, fun _ h => List.mem_cons_of_mem _ h, fun w hw' hm => ?_, by rintro ⟨⟩,
        by rintro - ⟨⟩⟩
      have heven : h.latest.seq &&& 1 = 0 := hm ▸ even_add_double hw' _
      have hdouble : (2 : Word) * BitVec.ofNat 32 (h.since + 1) =
          2 * BitVec.ofNat 32 h.since + 2 := by
        rw [BitVec.ofNat_add, BitVec.mul_add]
        rfl
      change h.current.seq = _
      rw [hcur, round_of_even heven, hm, BitVec.add_assoc, ← hdouble]
      rfl
    | cons p rest =>
      refine ⟨rfl, fun _ h => h, fun _ _ h => h, fun h0 => ⟨h0, rfl⟩, fun heven _ => ?_⟩
      rw [Access.applyOpt_some, Access.apply_store] at heven ⊢
      by_cases ha : tickSeq = a
      · -- the first store of a call makes the counter odd
        subst ha
        rw [Function.update_self] at heven
        have hodd := odd_pred (hcur ▸ even_add_two (even_round h.latest.seq))
        cases hw.phase with
        | idle h₁ => rw [h₁] at ht; cases ht
        | begun h₁ => rw [h₁] at ht; cases ht; exact absurd heven hodd
        | odd h₁ => rw [h₁] at ht; cases ht
        | bid h₁ => rw [h₁] at ht; cases ht
        | @ask l hl h₁ =>
          cases l with
          | nil => rw [h₁] at ht; cases ht
          | cons q l =>
            rw [h₁, List.cons_append, List.cons.injEq] at ht
            have hq := hl q List.mem_cons_self
            rw [ht.1] at hq
            rcases hq with hq | hq <;> cases hq
      · rw [Function.update_of_ne ha]

/-! ### The program's steps -/

section Steps

variable {s : Strategy} {r : Regs} {i : Addr} {y : Access Addr Word}

/-- Only the first reading of the counter is recorded. -/
theorem observe_of_ne (hy : y ≠ .load tickSeq) : (publisher s).observe h i y m = h :=
  if_neg fun hc => hy hc.1

/-- Sampling does not concern the writer. -/
theorem Writing.sample (hw : h.Writing m) (t : Tick) (n : Nat) :
    ({ h with sampled := t, since := n } : Publisher).Writing m := by
  refine ⟨?_, hw.current, hw.next, hw.listed⟩
  cases hw.phase with
  | idle h₁ h₂ h₃ h₄ h₅ => exact .idle h₁ h₂ h₃ h₄ h₅
  | begun h₁ h₂ h₃ h₄ => exact .begun h₁ h₂ h₃ h₄
  | odd h₁ h₂ => exact .odd h₁ h₂
  | bid h₁ h₂ h₃ => exact .bid h₁ h₂ h₃
  | ask h₁ h₂ h₃ h₄ h₅ => exact .ask h₁ h₂ h₃ h₄ h₅

/-- No access of the program concerns the writer. -/
theorem Writing.access {t : Thread} (hw : h.Writing m) (hy : t.access s = some y) :
    ((publisher s).observe h i y m).Writing (y.apply m) := by
  have hm : h.Writing (y.apply m) :=
    hw.congr (Strategy.apply_input hy (by decide) (by decide))
      (Strategy.apply_input hy (by decide) (by decide))
      (Strategy.apply_input hy (by decide) (by decide))
  simp only [publisher]
  split_ifs
  · exact hm.sample _ _
  · exact hm

/-- The first reading of an even counter samples the last completed publish. -/
theorem Writing.sampled (hw : h.Writing m) (heven : m tickSeq &&& 1 = 0) :
    ({ h with sampled := h.latest, since := 0 } : Publisher).Reading (m tickSeq) := by
  refine ⟨(hw.stable heven).1, heven, hw.listed, ?_, fun _ => rfl⟩
  rw [(hw.stable heven).1]
  exact (BitVec.add_zero _).symm

/-- The prices read between the two readings. -/
theorem Reading.clean (hr : h.Reading i') (hw : h.Writing m) :
    h.Clean m i' (m Fmma.bid = h.sampled.bid ∧ m Fmma.ask = h.sampled.ask) := by
  intro hseq h0
  obtain ⟨-, hb, ha⟩ := hw.stable (hseq ▸ hr.even)
  rw [← hr.still h0]
  exact ⟨hb, ha⟩

/-- **The second reading.** If the counter is what it was, no publish has come between. -/
theorem Reading.confirm {seq : Word} (hr : h.Reading seq) (hw : h.Writing m)
    (hsince : h.since < 2 ^ 31) (hseq : m tickSeq = seq)
    (hc : h.Clean m seq (r.bid = h.sampled.bid ∧ r.ask = h.sampled.ask)) :
    h.Snapshot r seq := by
  have hlatest := (hw.stable (hseq ▸ hr.even)).1
  have h0 : h.since = 0 := by
    refine eq_zero_of_double (v := seq) ?_ hsince
    rw [← hr.moved, ← hlatest, hseq]
  exact ⟨hr.counter, hr.even, hr.listed, (hc hseq h0).1, (hc hseq h0).2⟩

/-- A snapshot is considered: every decision comes from its prices. -/
theorem Snapshot.consider {seq : Word} (hs : h.Snapshot r seq) :
    h.Reader s (s.consider { r with tick := seq }) m := by
  have hs' : h.Snapshot { r with tick := seq } seq :=
    ⟨hs.counter, hs.even, hs.listed, hs.bid, hs.ask⟩
  cases s with
  | trading =>
    simp only [Strategy.consider]
    split_ifs
    all_goals first
      | exact trivial
      | exact ⟨hs', by rw [← hs.bid, ← hs.ask]⟩
  | marketMaker =>
    simp only [Strategy.consider, Strategy.setQuotes]
    split_ifs
    all_goals first
      | exact trivial
      | exact ⟨hs', by rintro ⟨⟩⟩

/-- The band test keeps the snapshot, and moves the anchor to its sum. -/
theorem Snapshot.bandTest {sum v : Word} (hs : h.Snapshot r r.tick)
    (hsum : sum = h.sampled.bid + h.sampled.ask) : h.Reader s (Strategy.bandTest r sum v) m := by
  have hs' : h.Snapshot { r with anchor := sum } r.tick :=
    ⟨hs.counter, hs.even, hs.listed, hs.bid, hs.ask⟩
  simp only [Strategy.bandTest]
  split_ifs
  · exact ⟨hs', fun _ => hsum⟩
  · exact ⟨hs', fun _ => hsum⟩
  · exact trivial

/-- The steps without an access keep the reader's invariant. -/
theorem Reader.internal {t : Thread} (hr : h.Reader s t m) (hnone : t.access s = none) :
    h.Reader s (t.step s m) m := by
  obtain ⟨point, r⟩ := t
  cases point with
  | loop => exact trivial
  | addFill b q => exact trivial
  | commit seq => exact Snapshot.consider hr
  | _ => cases hnone

/-- The accesses of the program keep the reader's invariant. -/
theorem Reader.access {t : Thread} (hr : h.Reader s t m) (hw : h.Writing m)
    (hy : t.access s = some y) (hp : (publisher s).permits h (s.pcOf t.point) y m) :
    ((publisher s).observe h (s.pcOf t.point) y m).Reader s (t.step s m) (y.apply m) := by
  obtain ⟨point, r⟩ := t
  cases point with
  | tickSeq =>
    cases hy
    have hobs : (publisher s).observe h (s.pcOf .tickSeq) (.load tickSeq) m =
        { h with sampled := h.latest, since := 0 } := if_pos ⟨rfl, rfl⟩
    rw [hobs, Thread.step_load rfl]
    simp only [Thread.resume]
    split_ifs with htick heven
    · exact trivial
    · exact hw.sampled heven
    · exact trivial
  | bid seq =>
    cases hy
    rw [observe_of_ne (by decide)]
    exact ⟨hr, fun hseq h0 => (hr.clean hw hseq h0).1⟩
  | ask seq =>
    cases hy
    rw [observe_of_ne (by decide)]
    exact ⟨hr.1, fun hseq h0 => ⟨hr.2 hseq h0, (hr.1.clean hw hseq h0).2⟩⟩
  | tickSeq2 seq =>
    cases hy
    have hne : s.secondRead ≠ s.firstRead := by cases s <;> decide
    have hobs : (publisher s).observe h (s.pcOf (.tickSeq2 seq)) (.load tickSeq) m = h :=
      if_neg fun hc => hne hc.2
    rw [hobs, Thread.step_load rfl]
    simp only [Thread.resume]
    split_ifs with hseq
    · exact hr.1.confirm hw (hp rfl rfl) hseq hr.2
    · exact trivial
  | thresh sum =>
    cases hy
    rw [observe_of_ne (by decide)]
    exact hr.1.bandTest hr.2
  | enable side =>
    cases hy
    rw [observe_of_ne (by decide), Thread.step_load rfl]
    simp only [Thread.resume]
    split_ifs
    · exact trivial
    · exact hr
  | maxPos side =>
    cases hy
    rw [observe_of_ne (by decide), Thread.step_load rfl]
    simp only [Thread.resume]
    split_ifs
    · exact hr
    · exact trivial
  | signal side =>
    cases hy
    rw [observe_of_ne (by cases side <;> decide)]
    exact hr
  | commit seq => cases hy
  | restart =>
    rw [Thread.step_load rfl]
    simp only [Thread.resume]
    split_ifs <;> exact trivial
  | clear i =>
    simp only [Thread.step, Thread.resume]
    split_ifs <;> exact trivial
  | fillSeq =>
    rw [Thread.step_load rfl]
    simp only [Thread.resume]
    split_ifs <;> exact trivial
  | _ => exact trivial

end Steps

end Publisher

/-! ### The snapshot theorem -/

theorem publisher_onlyShared (s : Strategy) : (publisher s).OnlyShared := by
  rintro h m x h' hx a v rfl
  cases hx with
  | store _ hin => exact hin
  | other _ _ hin _ => exact hin

/-- The invariants of writer and reader in every reachable state. -/
theorem publisher_invariant (s : Strategy) {c : Cpu} {h : Publisher}
    (hr : cpuMachine.Reachable (publisher s) (boot s Publisher.Starts) (c, h)) :
    ∃ t, s.Sim t c.toCore ∧ s.Loaded c.mem ∧ h.Writing c.mem ∧ h.Reader s t c.mem := by
  refine board_invariant s (publisher_onlyShared s)
    (I := fun t m h => h.Writing m ∧ h.Reader s t m) ?_ ?_ ?_ ?_ ?_ hr
  · rintro r m h ⟨htodo, hnext, hlatest, hlist⟩
    refine ⟨⟨.idle htodo ?_ ?_ ?_ ?_, fun hne => absurd htodo hne, ?_, ?_⟩, trivial⟩
    · rw [hlatest]
    · rw [hnext, hlatest]
    · rw [hlatest]
    · rw [hlatest]
    · rw [if_pos htodo, hnext, hlatest]
    · rw [hlist]
      exact List.mem_singleton_self _
  · rintro t m h ⟨hw, hread⟩ hnone
    exact ⟨hw, hread.internal hnone⟩
  · rintro t m h x ⟨hw, hread⟩ hx hp
    exact ⟨hw.access hx, hread.access hw hx hp⟩
  · rintro t m h x h' ⟨hw, hread⟩ hx
    exact ⟨hw.act hx, (hw.later hx).reader hread⟩
  · rintro t m h h' r - hreset
    exact hreset.elim

/-- Where a program decides on a committed tick, up to the store of `SIGNAL_TICK`. -/
def Strategy.decidingAt (s : Strategy) : List Addr :=
  [.enable .buy, .enable .sell, .maxPos .buy, .maxPos .sell, .signal .buy, .signalTick].map s.pcOf

/-- **Snapshot consistency.** Publishes, other stores of the host and the instructions of a
program may interleave in any way. When the program executes `MOV R11, R7`, R7 is the even
counter of one completed publish and R5, R6 are the prices of the same publish (or counter and
prices found in the RAM). From there to the store of `SIGNAL_TICK`, R11 and the prices stay those
of that publish; in `trading.asm` the sum compared with the band, which becomes the anchor, is
the sum of those prices. -/
theorem seqlock_consistent (s : Strategy) {c : Cpu} {h : Publisher}
    (hr : cpuMachine.Reachable (publisher s) (boot s Publisher.Starts) (c, h)) :
    (c.pc = s.commitAt → h.sampled ∈ h.published ∧ c.regs 7 = h.sampled.seq ∧
      c.regs 7 &&& 1 = 0 ∧ c.regs 5 = h.sampled.bid ∧ c.regs 6 = h.sampled.ask) ∧
    (s = .trading → c.pc = s.pcOf (.thresh 0) →
      c.regs 7 = h.sampled.bid + h.sampled.ask ∧ c.regs 11 = h.sampled.seq) ∧
    (c.pc ∈ s.decidingAt → h.sampled ∈ h.published ∧ c.regs 11 = h.sampled.seq ∧
      c.regs 11 &&& 1 = 0 ∧ c.regs 5 = h.sampled.bid ∧ c.regs 6 = h.sampled.ask ∧
      (s = .trading → c.regs 9 = h.sampled.bid + h.sampled.ask)) := by
  obtain ⟨⟨point, r⟩, hsim, hl, -, hread⟩ := publisher_invariant s hr
  refine ⟨fun hpc => ?_, fun hs hpc => ?_, fun hpc => ?_⟩
  · have hcorr := hsim.corr (hpc ▸ by cases s <;> decide)
    have hplace := hcorr.place_eq (p := .commit 0) (by cases s <;> trivial) hpc
    cases point <;> cases hplace
    next seq =>
    rw [hcorr.pins 7 seq rfl, hcorr.pins 5 r.bid rfl, hcorr.pins 6 r.ask rfl]
    exact ⟨hread.listed, hread.counter, hread.even, hread.bid, hread.ask⟩
  · subst hs
    have hcorr := hsim.corr (hpc ▸ by decide)
    have hplace := hcorr.place_eq (p := .thresh 0) trivial hpc
    cases point <;> cases hplace
    next sum =>
    rw [hcorr.pins 7 sum rfl, hcorr.pins 11 r.tick rfl]
    exact ⟨hread.2, hread.1.counter⟩
  · obtain ⟨p, hp, hpc⟩ := List.mem_map.mp hpc
    have hcorr := hsim.corr (by
      rw [← hpc]
      fin_cases hp <;> cases s <;> decide)
    have hplace := hcorr.place_eq (p := p) (by fin_cases hp <;> cases s <;> trivial) hpc.symm
    have hdecided : h.Snapshot r r.tick ∧
        (s = .trading → r.anchor = h.sampled.bid + h.sampled.ask) := by
      fin_cases hp <;> cases point <;> cases hplace <;> exact hread
    obtain ⟨⟨hcounter, heven, hlisted, hbid, hask⟩, hanchor⟩ := hdecided
    have hlive := hcorr.live
    rw [hlive.tick, hlive.bid, hlive.ask, hlive.anchor]
    exact ⟨hlisted, hcounter, heven, hbid, hask, hanchor⟩

/-! ### A concrete run -/

/-- What the host can be told to do. -/
inductive PublisherCommand
  | publish (bid ask bidSize askSize : Word)
  | store

/-- What it does then, if it can. -/
def PublisherCommand.perform (h : Publisher) :
    PublisherCommand → Option (Option (Access Addr Word) × Publisher)
  | .publish b a v w => if h.todo = [] then some (none, h.publish b a v w) else none
  | .store =>
    match h.todo with
    | [] => none
    | (a, v) :: rest => if inputBase ≤ a then some (some (.store a v), h.stored rest) else none

/-- Scripts for the publisher. -/
def publisherDirector (s : Strategy) : Director s (publisher s) PublisherCommand where
  perform k h _ := k.perform h
  ok a := a.2.since < 2 ^ 31
  perform_act {k h m x h'} hk := by
    cases k with
    | publish b a v w =>
      simp only [PublisherCommand.perform] at hk
      split_ifs at hk with hidle
      cases hk
      exact .publish b a v w hidle
    | store =>
      simp only [PublisherCommand.perform] at hk
      split at hk
      · cases hk
      · next a v rest htodo =>
        split_ifs at hk with hin
        cases hk
        exact .store htodo hin
  ok_permitted h _ _ _ _ := of_decide_eq_true h

/-- The prices 100 and 101 are published while `trading.asm` starts, and the program commits
them. -/
theorem seqlock_consistent_first : ∃ (c : Cpu) (h : Publisher), c.pc = Strategy.trading.commitAt ∧
    h.sampled = ⟨2, 100, 101⟩ ∧ c.regs 7 = 2 ∧ c.regs 5 = 100 ∧ c.regs 6 = 101 := by
  obtain ⟨t, c, h, hr, hcorr, hP⟩ := (publisherDirector .trading).exists_reachable
    (publisher_onlyShared .trading) (fun _ _ h => h) Publisher.Starts
    (m := fun _ => 0) (h := ⟨⟨0, 0, 0⟩, [], ⟨0, 0, 0⟩, ⟨0, 0, 0⟩, [⟨0, 0, 0⟩], ⟨0, 0, 0⟩, 0⟩)
    (by simp [Publisher.Starts])
    [.cpu 9, .host (.publish 100 101 1 1), .host .store, .cpu 1, .host .store, .host .store,
      .cpu 3, .host .store, .host .store, .host .store, .cpu 6]
    (P := fun a => a.1.1.point = .commit 2 ∧ a.2.sampled = ⟨2, 100, 101⟩) (by decide +kernel)
  obtain ⟨hpoint, hsampled⟩ := of_decide_eq_true hP
  have hpc : c.pc = Strategy.trading.commitAt := by
    rw [hcorr.pc, hpoint]
    rfl
  obtain ⟨-, h7, -, h5, h6⟩ := (seqlock_consistent .trading hr).1 hpc
  rw [hsampled] at h7 h5 h6
  exact ⟨c, h, hpc, hsampled, h7, h5, h6⟩

end Fmma
