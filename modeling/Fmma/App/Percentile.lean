import Fmma.App.Stats
import Fmma.Lib.Rank
import Fmma.Lib.Trace

/-!
# Percentiles

`fmma_stats_percentile` on the samples that `fmma_stats_signal` has recorded. The answer is the
upper edge of the bucket of the sample that has the rank, or the maximum where that is less. The
last bucket has no upper edge, but the program takes one there as well.

The rank `want` is computed in floating point, and comes with the call.
-/

namespace Fmma

open Rank

namespace Stats

/-- The scan over the buckets that are left, of which so many samples have been seen. -/
def scan (s : Stats) (want : ℕ) : List (Fin latBuckets) → ℕ → ℕ
  | [], _ => s.latMax
  | b :: bs, seen =>
    if s.latHist b = 0 then s.scan want bs seen
    else
      let seen := seen + s.latHist b
      if want ≤ seen then
        let edge := 1 <<< ((b : ℕ) + 1)
        if s.latMax < edge then s.latMax else edge
      else s.scan want bs seen

/-- `fmma_stats_percentile`. -/
def percentile (s : Stats) (want : ℕ) : ℕ :=
  if s.latCount = 0 then 0
  else
    let want := if want = 0 then 1 else want
    let want := if s.latCount < want then s.latCount else want
    s.scan want (List.finRange latBuckets) 0

theorem bucketOf_mono : Monotone bucketOf := by
  intro us us' h
  change halvings 23 us ≤ halvings 23 us'
  rw [halvings_eq, halvings_eq]
  exact min_le_min_right 23 (Nat.log_mono_right h)

/-- A sample is below the upper edge of its bucket, except in the last one. -/
theorem lt_edge {us : ℕ} (h : us < 2 ^ 24) : us < 2 ^ ((bucketOf us : ℕ) + 1) := by
  change us < 2 ^ (halvings 23 us + 1)
  rw [halvings_eq]
  have hlog : Nat.log 2 us < 24 := by
    by_cases hus : us = 0
    · rw [hus, Nat.log_zero_right]
      decide
    · exact Nat.log_lt_of_lt_pow hus h
  rw [Nat.min_eq_left (Nat.le_of_lt_succ hlog)]
  exact Nat.lt_pow_succ_log_self Nat.one_lt_two us

/-- The edge of the last bucket. -/
theorem edge_le (b : Fin latBuckets) : 2 ^ ((b : ℕ) + 1) ≤ 2 ^ 24 :=
  Nat.pow_le_pow_right Nat.two_pos b.isLt

variable {s : Stats} {want : ℕ}

/-- The answer for a bucket: its upper edge, or the maximum. -/
theorem scan_eq {bs : List (Fin latBuckets)} {seen : ℕ} (h : seen < want) :
    s.scan want bs seen = (firstBin s.latHist want bs seen).elim s.latMax
      fun b => min (2 ^ ((b : ℕ) + 1)) s.latMax := by
  induction bs generalizing seen with
  | nil => rfl
  | cons b bs ih =>
    rw [scan, firstBin]
    by_cases hzero : s.latHist b = 0
    · -- an empty bucket does not bring the count to the rank
      rw [if_pos hzero, hzero, Nat.add_zero, if_neg (not_le.mpr h)]
      exact ih h
    · rw [if_neg hzero]
      by_cases hreach : want ≤ seen + s.latHist b
      · simp only [if_pos hreach, Option.elim_some, Nat.one_shiftLeft]
        split_ifs <;> omega
      · simp only [if_neg hreach]
        exact ih (not_le.mp hreach)

end Stats

/-- A call of `fmma_stats_tick` or `fmma_stats_signal`, with what the clock reads. -/
inductive StatsCall
  | tick (seq : Word) (now : ℕ)
  | signal (seq : Word) (now : ℕ)

/-- The counters, and the samples that were recorded, the latest first. -/
structure Sampled where
  stats : Stats
  samples : List ℕ

namespace Sampled

/-- After `fmma_stats_init`. -/
def start (now : ℕ) : Sampled where
  stats := .init now
  samples := []

/-- A call. -/
def step (w : Sampled) : StatsCall → Sampled
  | .tick seq now => { w with stats := w.stats.tick seq now }
  | .signal seq now => {
      stats := (w.stats.signal seq now).2
      samples := (w.stats.sample seq now).toList ++ w.samples }

/-- The counters are those of the samples, as long as no bucket can have come to its end. -/
structure Binned (w : Sampled) : Prop where
  count : w.samples.length < 2 ^ 32 → w.stats.latCount = w.samples.length
  hist : w.samples.length < 2 ^ 32 →
    ∀ b, w.stats.latHist b = w.samples.countP (Stats.bucketOf · = b)
  max : ∀ x ∈ w.samples, x ≤ w.stats.latMax

variable {w : Sampled}

theorem binned_start (now : ℕ) : (start now).Binned where
  count := fun _ => rfl
  hist := fun _ _ => rfl
  max := fun _ hx => absurd hx List.not_mem_nil

/-- A sample is recorded. -/
theorem Binned.record (hw : w.Binned) (signals dt : ℕ) :
    Binned ⟨{ w.stats with signals := signals }.record dt, dt :: w.samples⟩ where
  count := by
    intro hlen
    rw [List.length_cons] at hlen ⊢
    change (w.stats.latCount + 1) % 2 ^ 64 = _
    rw [hw.count (by omega), Nat.mod_eq_of_lt (by omega)]
  hist := by
    intro hlen b
    rw [List.length_cons] at hlen
    have hold := hw.hist (by omega)
    change Function.update w.stats.latHist (Stats.bucketOf dt)
      ((w.stats.latHist (Stats.bucketOf dt) + 1) % 2 ^ 32) b = _
    by_cases hb : Stats.bucketOf dt = b
    · have hle : w.samples.countP (Stats.bucketOf · = b) ≤ w.samples.length :=
        List.countP_le_length
      rw [hb, Function.update_self, hold, List.countP_cons_of_pos (by simpa using hb),
        Nat.mod_eq_of_lt (by omega)]
    · rw [Function.update_of_ne (Ne.symm hb), hold, List.countP_cons_of_neg (by simpa using hb)]
  max := by
    intro x hx
    change x ≤ if w.stats.latMax < dt then dt else w.stats.latMax
    rcases List.mem_cons.mp hx with rfl | hx
    · split_ifs <;> omega
    · have := hw.max x hx
      split_ifs <;> omega

theorem Binned.step (hw : w.Binned) (c : StatsCall) : (w.step c).Binned := by
  cases c with
  | tick seq now => exact ⟨hw.count, hw.hist, hw.max⟩
  | signal seq now =>
    simp only [Sampled.step, Stats.signal]
    cases hsample : w.stats.sample seq now with
    | none => exact ⟨hw.count, hw.hist, hw.max⟩
    | some dt => exact hw.record _ dt

/-- **The answer** is for the bucket of the sample that has the rank. -/
theorem Binned.percentile_eq (hw : w.Binned) (hlen : w.samples.length < 2 ^ 32) {want x : ℕ}
    (hx : Ranked w.samples want x) (hwant : want ≤ w.stats.latCount) :
    w.stats.percentile want = min (2 ^ ((Stats.bucketOf x : ℕ) + 1)) w.stats.latMax := by
  have hone := hx.1
  -- all buckets are left, so that no sample has been seen
  have hnone : 0 = w.samples.countP (Stats.bucketOf · ∉ List.finRange latBuckets) := by simp
  have hbin := hx.firstBin_of_seen Stats.bucketOf_mono (hw.hist hlen)
    (List.pairwise_lt_finRange latBuckets) (fun _ b _ _ => List.mem_finRange b) hnone
    (List.mem_finRange _)
  rw [Stats.percentile, if_neg (by omega)]
  simp only [if_neg (by omega : ¬want = 0), if_neg (not_lt.mpr hwant)]
  rw [Stats.scan_eq hone, hbin, Option.elim_some]

/-- The answer for the rank `want` is a conservative bound of `x`, the sample that has it: `x` is
not above it, it is not above the maximum, and a larger rank has no smaller one. -/
structure Conservative (w : Sampled) (want x : ℕ) : Prop where
  bound : x ≤ w.stats.percentile want
  le_max : w.stats.percentile want ≤ w.stats.latMax
  mono : ∀ want', want ≤ want' → want' ≤ w.stats.latCount →
    w.stats.percentile want ≤ w.stats.percentile want'

/-- The upper edge of a bucket bounds its samples up to the edge of the last bucket. -/
theorem le_edge_iff (x : ℕ) : x ≤ 2 ^ ((Stats.bucketOf x : ℕ) + 1) ↔ x ≤ 2 ^ 24 := by
  constructor
  · exact fun h => h.trans (Stats.edge_le _)
  · intro h
    rcases h.lt_or_eq with hlt | rfl
    · exact (Stats.lt_edge hlt).le
    · decide

/-- A larger rank has no smaller answer. -/
theorem Binned.percentile_mono (hw : w.Binned) (hlen : w.samples.length < 2 ^ 32)
    {want want' : ℕ} (hone : 1 ≤ want) (hle : want ≤ want') (hwant : want' ≤ w.stats.latCount) :
    w.stats.percentile want ≤ w.stats.percentile want' := by
  rw [hw.count hlen] at hwant
  obtain ⟨x, hx⟩ := exists_ranked hone (hle.trans hwant)
  obtain ⟨x', hx'⟩ := exists_ranked (hone.trans hle) hwant
  rw [← hw.count hlen] at hwant
  rw [hw.percentile_eq hlen hx (hle.trans hwant), hw.percentile_eq hlen hx' hwant]
  have hbucket : Stats.bucketOf x ≤ Stats.bucketOf x' := Stats.bucketOf_mono (hx.mono hx' hle)
  exact min_le_min_right _ (Nat.pow_le_pow_right Nat.two_pos (Nat.succ_le_succ hbucket))

theorem Binned.conservative_iff (hw : w.Binned) (hlen : w.samples.length < 2 ^ 32) {want x : ℕ}
    (hx : Ranked w.samples want x) (hwant : want ≤ w.stats.latCount) :
    w.Conservative want x ↔ x ≤ 2 ^ 24 := by
  have hanswer := hw.percentile_eq hlen hx hwant
  rw [← le_edge_iff]
  constructor
  · intro h
    exact (hanswer ▸ h.bound).trans (Nat.min_le_left _ _)
  · intro h
    refine ⟨?_, ?_, fun want' hle hwant' => hw.percentile_mono hlen hx.1 hle hwant'⟩
    · rw [hanswer]
      exact le_min h (hw.max x hx.mem)
    · rw [hanswer]
      exact Nat.min_le_right _ _

end Sampled

/-- **The percentiles.** Of fewer than 2^32 samples, the answer for a rank is a conservative bound
just when the sample that has it is not above 2^24 µs, where the last bucket would end. -/
theorem percentile_conservative_iff (now : ℕ) (calls : List StatsCall) (want : ℕ)
    (hlen : (Trace.run Sampled.step (.start now) calls).samples.length < 2 ^ 32) (hone : 1 ≤ want)
    (hwant : want ≤ (Trace.run Sampled.step (.start now) calls).stats.latCount) :
    ∃ x, Ranked (Trace.run Sampled.step (.start now) calls).samples want x ∧
      ((Trace.run Sampled.step (.start now) calls).Conservative want x ↔ x ≤ 2 ^ 24) := by
  have hw : (Trace.run Sampled.step (.start now) calls).Binned :=
    Trace.always_of_step (fun _ e h => h.step e) (Sampled.binned_start now) calls List.prefix_rfl
  have hcount := hw.count hlen
  obtain ⟨x, hx⟩ := exists_ranked hone (hwant.trans_eq hcount)
  exact ⟨x, hx, hw.conservative_iff hlen hx hwant⟩

/-- Two ticks that are seen after 3 and after 700 µs, and the smaller of the two. -/
theorem percentile_conservative_iff_of_two :
    ∃ x, Ranked [700, 3] 1 x ∧
      ((Trace.run Sampled.step (.start 0)
        [.tick 2 10, .signal 2 13, .tick 4 20, .signal 4 720]).Conservative 1 x ↔ x ≤ 2 ^ 24) :=
  percentile_conservative_iff 0 [.tick 2 10, .signal 2 13, .tick 4 20, .signal 4 720] 1
    (by decide) le_rfl (by decide)

/-- A decision that is seen after 2^24 + 1 µs: the answer is the edge below. -/
theorem not_percentile_conservative :
    (Trace.run Sampled.step (.start 0) [.tick 2 1, .signal 2 16777218]).samples = [16777217] ∧
      (Trace.run Sampled.step (.start 0) [.tick 2 1, .signal 2 16777218]).stats.latCount = 1 ∧
      Ranked [16777217] 1 16777217 ∧
      ¬(Trace.run Sampled.step (.start 0) [.tick 2 1, .signal 2 16777218]).Conservative
        1 16777217 := by
  have hranked : Ranked [16777217] 1 16777217 := ⟨le_rfl, by simp⟩
  refine ⟨rfl, rfl, hranked, fun h => ?_⟩
  have hanswer : (Trace.run Sampled.step (.start 0)
    [.tick 2 1, .signal 2 16777218]).stats.percentile 1 = 16777216 := by decide
  exact absurd (hanswer ▸ h.bound) (by decide)

end Fmma
