import Fmma.App.Stats
import Fmma.Host
import Fmma.Lib.Trace
import Mathlib.Algebra.BigOperators.Fin

/-!
# The quote a decision is timed against

`fmma_stats_tick` keeps when each tick was published, in a table of 256 entries without the number
of the tick. The numbers are even, so that 128 entries are used, and the 129th tick from a decision
on takes the entry of its quote. `fmma_stats_signal` does not notice.
-/

namespace Fmma

/-- A tick, and when it was published. -/
structure PublishedTick where
  seq : Word
  timeUs : ℕ
  deriving DecidableEq

/-- A tick is published, or a decision is timed, so many microseconds after what was before: the
clock does not go back. -/
inductive StatsEvent
  | publish (bid ask bidSize askSize : Word) (elapsed : ℕ)
  | signal (seq : Word) (elapsed : ℕ)

/-- The counters, the fabric's and the clock; beside them the ticks that were published and the
samples that were recorded, the latest first. -/
structure Timing where
  stats : Stats
  fpga : Fpga
  clock : ℕ
  history : List PublishedTick
  samples : List ℕ

namespace Timing

/-- After `fmma_stats_init`. -/
def start (fpga : Fpga) (now : ℕ) : Timing where
  stats := .init now
  fpga := fpga
  clock := now
  history := []
  samples := []

/-- The clock at an event. -/
def reads (w : Timing) : StatsEvent → ℕ
  | .publish _ _ _ _ elapsed | .signal _ elapsed => w.clock + elapsed

/-- What happens, happens. -/
def step (w : Timing) (e : StatsEvent) : Timing :=
  match e with
  | .publish bid ask bidSize askSize _ =>
    let fpga := (w.fpga.publishTick bid ask bidSize askSize).2
    { w with
      stats := w.stats.tick fpga.tickSeq (w.reads e)
      fpga := fpga
      clock := w.reads e
      history := ⟨fpga.tickSeq, w.reads e⟩ :: w.history }
  | .signal seq _ =>
    { w with
      stats := (w.stats.signal seq (w.reads e)).2
      clock := w.reads e
      samples := (w.stats.sample seq (w.reads e)).toList ++ w.samples }

/-- The last tick that was published into the entry of `seq`. -/
def latest (w : Timing) (seq : Word) : Option PublishedTick :=
  w.history.find? fun p => Stats.index p.seq = Stats.index seq

/-- The tick `seq` is still in the history, as `p`. -/
def InHistory (w : Timing) (seq : Word) (p : PublishedTick) : Prop :=
  w.latest seq = some p ∧ p.seq = seq

/-- A decision on a tick that is still in the history is timed from its publication. On any other,
the answer is 0, and no sample is recorded. -/
def Attributed (w : Timing) (e : StatsEvent) : Prop :=
  match e with
  | .publish .. => True
  | .signal seq _ =>
    (∀ p, w.InHistory seq p →
      (w.stats.signal seq (w.reads e)).1 = w.reads e - p.timeUs ∧
        (w.step e).samples = (w.reads e - p.timeUs) :: w.samples) ∧
    ((∀ p, ¬w.InHistory seq p) →
      (w.stats.signal seq (w.reads e)).1 = 0 ∧ (w.step e).samples = w.samples)

/-- The entry of the tick is its own, unless it is empty. (An entry of time 0 passes for empty.) -/
def Unshared (w : Timing) : StatsEvent → Prop
  | .publish .. => True
  | .signal seq _ => ∀ p, w.latest seq = some p → (p.seq = seq ↔ p.timeUs ≠ 0)

/-- The counters are those of the samples that were recorded. -/
structure Tallied (w : Timing) : Prop where
  count : w.stats.latCount = w.samples.length
  hist : ∑ b, w.stats.latHist b = w.stats.latCount
  low : w.stats.latMin * w.stats.latCount ≤ w.stats.latSum
  high : w.stats.latSum ≤ w.stats.latMax * w.stats.latCount

/-- No counter comes to its end. -/
def Fits (w : Timing) (e : StatsEvent) : Prop :=
  match e with
  | .publish .. => True
  | .signal seq _ => ∀ dt ∈ w.stats.sample seq (w.reads e),
    w.stats.latCount + 1 < 2 ^ 64 ∧ w.stats.latSum + dt < 2 ^ 64 ∧
      w.stats.latHist (Stats.bucketOf dt) + 1 < 2 ^ 32

/-- The table has the times of the last ticks, and these are past. -/
structure Tabled (w : Timing) : Prop where
  entry : ∀ seq, w.stats.tickTimeUs (Stats.index seq) =
    ((w.latest seq).map PublishedTick.timeUs).getD 0
  past : ∀ p ∈ w.history, p.timeUs ≤ w.clock

variable {w : Timing} {e : StatsEvent} {seq : Word} {elapsed : ℕ}

theorem tabled_start (fpga : Fpga) (now : ℕ) : (start fpga now).Tabled where
  entry := fun _ => rfl
  past := fun _ hp => absurd hp List.not_mem_nil

theorem tickTimeUs_signal (s : Stats) (seq : Word) (now : ℕ) :
    (s.signal seq now).2.tickTimeUs = s.tickTimeUs := by
  unfold Stats.signal
  cases s.sample seq now <;> rfl

/-- **Every event keeps the table.** -/
theorem Tabled.step (hw : w.Tabled) : (w.step e).Tabled := by
  cases e with
  | publish bid ask bidSize askSize elapsed =>
    constructor
    · intro seq
      simp only [Timing.step, Stats.tick, latest, List.find?_cons]
      by_cases hseq : Stats.index seq =
          Stats.index (w.fpga.publishTick bid ask bidSize askSize).2.tickSeq
      · simp [hseq]
      · rw [Function.update_of_ne hseq]
        simp only [Ne.symm hseq, decide_false]
        exact hw.entry seq
    · intro p hp
      rcases List.mem_cons.mp hp with rfl | hp
      · exact le_rfl
      · exact (hw.past p hp).trans (Nat.le_add_right _ _)
  | signal seq elapsed =>
    constructor
    · intro seq'
      change (w.stats.signal seq _).2.tickTimeUs _ = _
      rw [tickTimeUs_signal]
      exact hw.entry seq'
    · exact fun p hp => (hw.past p hp).trans (Nat.le_add_right _ _)

/-- **What is recorded** is the time since the last tick in the entry. -/
theorem sample_eq (hw : w.Tabled) (seq : Word) (elapsed : ℕ) :
    w.stats.sample seq (w.clock + elapsed) =
      match w.latest seq with
      | none => none
      | some p => if p.timeUs = 0 then none else some (w.clock + elapsed - p.timeUs) := by
  have hentry := hw.entry seq
  cases hlatest : w.latest seq with
  | none =>
    rw [hlatest] at hentry
    have hzero : w.stats.tickTimeUs (Stats.index seq) = 0 := hentry
    simp [Stats.sample, hzero]
  | some p =>
    rw [hlatest] at hentry
    have htime : w.stats.tickTimeUs (Stats.index seq) = p.timeUs := hentry
    have hpast : ¬w.clock + elapsed < p.timeUs := by
      have := hw.past p (List.mem_of_find?_eq_some hlatest)
      omega
    simp only [Stats.sample, htime, if_neg hpast]

theorem signal_fst (s : Stats) (seq : Word) (now : ℕ) :
    (s.signal seq now).1 = (s.sample seq now).getD 0 := by
  unfold Stats.signal
  cases s.sample seq now <;> rfl

theorem inHistory_iff {p q : PublishedTick} (h : w.latest seq = some p) :
    w.InHistory seq q ↔ p = q ∧ p.seq = seq := by
  rw [InHistory, h, Option.some.injEq]
  grind

/-- **A decision is timed against its quote** just when the entry is not shared. -/
theorem attributed_iff (hw : w.Tabled) : w.Attributed e ↔ w.Unshared e := by
  cases e with
  | publish => exact Iff.rfl
  | signal seq elapsed =>
    have hsample := sample_eq hw seq elapsed
    simp only [Attributed, Unshared, reads, step, signal_fst]
    cases hlatest : w.latest seq with
    | none =>
      rw [hlatest] at hsample
      have hnone : ∀ p, ¬w.InHistory seq p := by
        rintro p ⟨hp, -⟩
        cases hlatest.symm.trans hp
      rw [hsample]
      refine iff_of_true ⟨fun p hp => absurd hp (hnone p), fun _ => ⟨rfl, rfl⟩⟩ ?_
      rintro p ⟨⟩
    | some p =>
      rw [hlatest] at hsample
      dsimp only at hsample
      simp only [inHistory_iff hlatest, Option.some.injEq, forall_eq']
      by_cases hseq : p.seq = seq
      · -- the entry is its own, and the sample is missing only where it passes for empty
        split_ifs at hsample with htime
        · rw [hsample]
          simp [hseq, htime]
        · rw [hsample]
          simp [hseq, htime]
      · split_ifs at hsample with htime
        · rw [hsample]
          simp [hseq, htime]
        · rw [hsample]
          simp [hseq, htime]

/-! ### The counters -/

theorem tallied_start (fpga : Fpga) (now : ℕ) : (start fpga now).Tallied where
  count := rfl
  hist := Finset.sum_const_zero
  low := Nat.le_of_eq (Nat.mul_zero _)
  high := Nat.zero_le _

/-- One more in one bucket is one more in all. -/
theorem sum_update_succ {n : ℕ} (f : Fin n → ℕ) (i : Fin n) :
    ∑ b, Function.update f i (f i + 1) b = (∑ b, f b) + 1 := by
  rw [Finset.sum_update_of_mem (Finset.mem_univ i), Finset.sdiff_singleton_eq_erase,
    ← Finset.add_sum_erase Finset.univ f (Finset.mem_univ i)]
  omega

/-- **A sample that fits** is counted, added up and sorted in. -/
theorem Tallied.signal (hw : w.Tallied) (hfits : w.Fits (.signal seq elapsed)) :
    (w.step (.signal seq elapsed)).Tallied := by
  obtain ⟨hcount, hhist, hlow, hhigh⟩ := hw
  simp only [Fits, reads] at hfits
  cases hsample : w.stats.sample seq (w.clock + elapsed) with
  | none =>
    have hstats : (w.step (.signal seq elapsed)).stats =
        { w.stats with signals := (w.stats.signals + 1) % 2 ^ 64 } := by
      simp only [step, reads, Stats.signal, hsample]
    have hsamples : (w.step (.signal seq elapsed)).samples = w.samples := by
      simp [step, reads, hsample]
    constructor
    · rw [hstats, hsamples]
      exact hcount
    · rw [hstats]
      exact hhist
    · rw [hstats]
      exact hlow
    · rw [hstats]
      exact hhigh
  | some dt =>
    obtain ⟨hfits₁, hfits₂, hfits₃⟩ := hfits dt hsample
    have hstats : (w.step (.signal seq elapsed)).stats =
        { w.stats with signals := (w.stats.signals + 1) % 2 ^ 64 }.record dt := by
      simp only [step, reads, Stats.signal, hsample]
    have hsamples : (w.step (.signal seq elapsed)).samples = dt :: w.samples := by
      simp [step, reads, hsample]
    simp only [Stats.record, Nat.mod_eq_of_lt hfits₁, Nat.mod_eq_of_lt hfits₂,
      Nat.mod_eq_of_lt hfits₃] at hstats
    constructor
    · rw [hstats, hsamples, List.length_cons, ← hcount]
    · rw [hstats]
      simp only [sum_update_succ, hhist]
    · -- the old samples are no less than the old minimum, and the new one no less than itself
      have hmin : (if dt < w.stats.latMin then dt else w.stats.latMin) ≤ w.stats.latMin ∧
          (if dt < w.stats.latMin then dt else w.stats.latMin) ≤ dt := by
        split_ifs <;> omega
      have hold := Nat.mul_le_mul_right w.stats.latCount hmin.1
      rw [hstats, Nat.mul_succ]
      exact Nat.add_le_add (hold.trans hlow) hmin.2
    · have hmax : w.stats.latMax ≤ (if w.stats.latMax < dt then dt else w.stats.latMax) ∧
          dt ≤ if w.stats.latMax < dt then dt else w.stats.latMax := by
        split_ifs <;> omega
      have hold := Nat.mul_le_mul_right w.stats.latCount hmax.1
      rw [hstats, Nat.mul_succ]
      exact Nat.add_le_add (hhigh.trans hold) hmax.2

theorem Tallied.step (hw : w.Tallied) (hfits : w.Fits e) : (w.step e).Tallied := by
  cases e with
  | publish => exact ⟨hw.count, hw.hist, hw.low, hw.high⟩
  | signal => exact hw.signal hfits

/-! ### Which ticks are in the history -/

/-- The numbers of the ticks go back in steps of two. -/
def Stepped (w : Timing) : Prop :=
  ∀ i p, w.history[i]? = some p → p.seq = w.fpga.tickSeq - BitVec.ofNat 32 (2 * i)

theorem stepped_start (fpga : Fpga) (now : ℕ) : (start fpga now).Stepped := by
  intro i p hp
  simp [start] at hp

theorem Stepped.step (hw : w.Stepped) : (w.step e).Stepped := by
  cases e with
  | signal => exact hw
  | publish bid ask bidSize askSize elapsed =>
    intro i p hp
    change p.seq = w.fpga.tickSeq + 1 + 1 - BitVec.ofNat 32 (2 * i)
    cases i with
    | zero =>
      obtain rfl := Option.some.inj hp
      exact (BitVec.sub_zero _).symm
    | succ i =>
      rw [hw i p hp]
      bv_omega

/-- Every 128th tick has the same entry. -/
theorem index_sub_eq_iff (t : Word) (i j : ℕ) :
    Stats.index (t - BitVec.ofNat 32 (2 * i)) = Stats.index (t - BitVec.ofNat 32 (2 * j)) ↔
      i % 128 = j % 128 := by
  simp only [Stats.index, tickHistory, Fin.ext_iff, Fin.val_ofNat, BitVec.toNat_sub,
    BitVec.toNat_ofNat]
  omega

/-- **The history is that of the last 128 ticks.** -/
theorem inHistory_iff_recent (hw : w.Stepped) (seq : Word) (p : PublishedTick) :
    w.InHistory seq p ↔ ∃ i < 128, w.history[i]? = some p ∧ p.seq = seq := by
  rw [InHistory, latest, List.find?_eq_some_iff_getElem]
  constructor
  · rintro ⟨⟨-, i, hi, hp, hfirst⟩, hseq⟩
    have hget : w.history[i]? = some p := by
      rw [List.getElem?_eq_getElem hi, hp]
    refine ⟨i, ?_, hget, hseq⟩
    by_contra hlate
    -- the tick 128 steps later has the entry as well
    obtain ⟨j, rfl⟩ := Nat.exists_eq_add_of_le' (not_lt.mp hlate)
    have hj : j < w.history.length := (Nat.le_add_right j 128).trans_lt hi
    have hother := hw j _ (List.getElem?_eq_getElem hj)
    have hself : seq = w.fpga.tickSeq - BitVec.ofNat 32 (2 * (j + 128)) :=
      hseq.symm.trans (hw (j + 128) p hget)
    have hsame : Stats.index w.history[j].seq = Stats.index seq := by
      rw [hother, hself]
      exact (index_sub_eq_iff _ _ _).mpr (Nat.add_mod_right j 128).symm
    have hnot := hfirst j (Nat.lt_add_of_pos_right (by decide))
    rw [hsame] at hnot
    simp at hnot
  · rintro ⟨i, hi, hget, hseq⟩
    obtain ⟨hlt, hp⟩ := List.getElem?_eq_some_iff.mp hget
    refine ⟨⟨by simp [hseq], i, hlt, hp, fun j hj => ?_⟩, hseq⟩
    have hother := hw j _ (List.getElem?_eq_getElem (hj.trans hlt))
    have hdiffer : Stats.index w.history[j].seq ≠ Stats.index seq := by
      rw [hother, ← hseq, hw i p hget, ne_eq, index_sub_eq_iff]
      omega
    simp [hdiffer]

/-- All along a run the history is that of the last 128 ticks. -/
theorem history_recent (fpga : Fpga) (now : ℕ) (l : List StatsEvent) :
    Trace.Always step (fun w => ∀ seq p, w.InHistory seq p ↔
      ∃ i < 128, w.history[i]? = some p ∧ p.seq = seq) (start fpga now) l :=
  (Trace.always_of_step (fun _ _ hw => hw.step) (stepped_start fpga now)).imp
    fun _ hw => inHistory_iff_recent hw

end Timing

/-- **Latency is attributed to the right quote.** In every run each decision is timed against the
tick it names, or not at all if that is no longer in the history, just when no decision finds its
entry taken by another tick. The counters are those of the samples as long as none comes to its
end. -/
theorem latency_attributed_iff (fpga : Fpga) (now : ℕ) (l : List StatsEvent) :
    (Trace.Each Timing.step Timing.Attributed (.start fpga now) l ↔
      Trace.Each Timing.step Timing.Unshared (.start fpga now) l) ∧
    (Trace.Each Timing.step Timing.Fits (.start fpga now) l →
      Trace.Always Timing.step Timing.Tallied (.start fpga now) l) := by
  constructor
  · exact Trace.each_congr_of (fun w e hw => Timing.Tabled.step hw)
      (fun w e hw => Timing.attributed_iff hw) (Timing.tabled_start fpga now)
  · exact Trace.always_of_each (fun w e hw hfits => hw.step hfits) (Timing.tallied_start fpga now)

/-- **A decision on the 129th tick from the last.** The ticks 2 to 258 are published, one each
millisecond, and the decision on tick 2 comes 5 microseconds after tick 258. -/
theorem not_latency_attributed : ¬∀ (fpga : Fpga) (now : ℕ) (l : List StatsEvent),
    Trace.Each Timing.step Timing.Attributed (.start fpga now) l := by
  intro hall
  have hattributed := hall ⟨0, 0, 0⟩ 1000000
    (List.replicate 129 (.publish 100 101 1 1 1000) ++ [.signal 2 5])
    (List.replicate 129 (.publish 100 101 1 1 1000)) (.signal 2 5) List.prefix_rfl
  generalize hw : Trace.run Timing.step (.start ⟨0, 0, 0⟩ 1000000)
    (List.replicate 129 (.publish 100 101 1 1 1000)) = w at hattributed
  have hlatest : w.latest 2 = some ⟨258, 1129000⟩ := by
    rw [← hw]
    decide +kernel
  have hanswer : (w.stats.signal 2 (w.reads (.signal 2 5))).1 = 5 := by
    rw [← hw]
    decide +kernel
  have hgone : ∀ p, ¬w.InHistory 2 p := by
    intro p hp
    exact absurd ((Timing.inHistory_iff hlatest).mp hp).2 (by decide)
  exact absurd (hanswer.symm.trans (hattributed.2 hgone).1) (by decide)

end Fmma
