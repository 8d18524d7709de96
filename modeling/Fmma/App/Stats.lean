import Fmma.Protocol
import Mathlib.Data.Nat.Log

/-!
# Counters and latency

`fmma_stats.c`, as far as the latency of the fabric's decisions goes. The clock is read where the
source reads it and comes with the call. Times are integers, since the clock does not come to the
end of 64 bits; the counters wrap. Left out are the counters that are only printed and the timing of
the software strategy.
-/

namespace Fmma

/-- `FMMA_TICK_HISTORY`. -/
abbrev tickHistory : ℕ := 256

/-- `FMMA_LAT_BUCKETS`. -/
abbrev latBuckets : ℕ := 24

/-- `struct fmma_stats`. -/
structure Stats where
  ticks : ℕ
  signals : ℕ
  latCount : ℕ
  latSum : ℕ
  latMin : ℕ
  latMax : ℕ
  latHist : Fin latBuckets → ℕ
  tickTimeUs : Fin tickHistory → ℕ
  lastTickUs : ℕ

namespace Stats

/-- The loop of `bucket_of`: how often it halves, `left` times at most. -/
def halvings : ℕ → ℕ → ℕ
  | 0, _ => 0
  | left + 1, us => if 1 < us then halvings left (us / 2) + 1 else 0

theorem halvings_eq (left us : ℕ) : halvings left us = min (Nat.log 2 us) left := by
  induction left generalizing us with
  | zero => rw [halvings, Nat.min_zero]
  | succ left ih =>
    rw [halvings]
    split_ifs with h
    · rw [ih, Nat.log_of_one_lt_of_le Nat.one_lt_two h]
      omega
    · rw [Nat.log_of_lt (by omega), Nat.zero_min]

/-- `bucket_of`. -/
def bucketOf (us : ℕ) : Fin latBuckets :=
  ⟨halvings (latBuckets - 1) us, by
    rw [halvings_eq]
    exact Nat.lt_succ_of_le (Nat.min_le_right _ _)⟩

/-- The entry of a tick, `seq % FMMA_TICK_HISTORY`. -/
def index (seq : Word) : Fin tickHistory := Fin.ofNat tickHistory seq.toNat

/-- `fmma_stats_init`. -/
def init (now : ℕ) : Stats where
  ticks := 0
  signals := 0
  latCount := 0
  latSum := 0
  latMin := 2 ^ 64 - 1
  latMax := 0
  latHist := fun _ => 0
  tickTimeUs := fun _ => 0
  lastTickUs := now

/-- `fmma_stats_tick`. -/
def tick (s : Stats) (seq : Word) (now : ℕ) : Stats :=
  { s with
    tickTimeUs := Function.update s.tickTimeUs (index seq) now
    lastTickUs := now
    ticks := (s.ticks + 1) % 2 ^ 64 }

/-- The sample that `fmma_stats_signal` takes, if it does not return before. -/
def sample (s : Stats) (seq : Word) (now : ℕ) : Option ℕ :=
  let published := s.tickTimeUs (index seq)
  if published = 0 then none
  else if now < published then none
  else some (now - published)

/-- A sample is recorded. -/
def record (s : Stats) (dt : ℕ) : Stats :=
  { s with
    latCount := (s.latCount + 1) % 2 ^ 64
    latSum := (s.latSum + dt) % 2 ^ 64
    latMin := if dt < s.latMin then dt else s.latMin
    latMax := if s.latMax < dt then dt else s.latMax
    latHist := Function.update s.latHist (bucketOf dt) ((s.latHist (bucketOf dt) + 1) % 2 ^ 32) }

/-- `fmma_stats_signal`. -/
def signal (s : Stats) (seq : Word) (now : ℕ) : ℕ × Stats :=
  let counted := { s with signals := (s.signals + 1) % 2 ^ 64 }
  match s.sample seq now with
  | none => (0, counted)
  | some dt => (dt, counted.record dt)

end Stats

end Fmma
