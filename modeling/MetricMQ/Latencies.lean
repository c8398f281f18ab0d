import MetricMQ.Counters
import MetricMQ.Histogram
import MetricMQ.MetricsExport

/-! The latency histogram of `metrics.cpp` over any run of the broker, whatever times the clock
gives, and what a scrape shows of it. -/
namespace MetricMQ

open ByteString Std Machine TextFormat Histogram

namespace Metrics

/-- Latencies are signed, and a negative one is below every bound; the sum is not. -/
def recordLatency (hist : LatencyHistogram) (latencyUs : Int64) : LatencyHistogram :=
  let hist := { hist with count := hist.count + 1, sumUs := hist.sumUs + latencyUs.toUInt64 }
  if latencyUs < 100 then { hist with bucketLt100us := hist.bucketLt100us + 1 }
  else if latencyUs < 500 then { hist with bucketLt500us := hist.bucketLt500us + 1 }
  else if latencyUs < 1000 then { hist with bucketLt1ms := hist.bucketLt1ms + 1 }
  else if latencyUs < 5000 then { hist with bucketLt5ms := hist.bucketLt5ms + 1 }
  else if latencyUs < 10000 then { hist with bucketLt10ms := hist.bucketLt10ms + 1 }
  else if latencyUs < 50000 then { hist with bucketLt50ms := hist.bucketLt50ms + 1 }
  else if latencyUs < 100000 then { hist with bucketLt100ms := hist.bucketLt100ms + 1 }
  else { hist with bucketInf := hist.bucketInf + 1 }

def recordPublishLatency (x : MetricsExtras) (latencyUs : Int64) : MetricsExtras :=
  { x with publishLatency := recordLatency x.publishLatency latencyUs }

/-- The bounds of all buckets but the last, in microseconds, and the names all buckets go by. -/
def bucketBounds : List ℤ := [100, 500, 1000, 5000, 10000, 50000, 100000]

def bucketNames : List Bytes :=
  [lit "0.0001", lit "0.0005", lit "0.001", lit "0.005", lit "0.01", lit "0.05", lit "0.1", lit "+Inf"]

theorem place_bucketBounds (x : ℤ) : place bucketBounds x =
    if x < 100 then 0 else if x < 500 then 1 else if x < 1000 then 2 else if x < 5000 then 3
    else if x < 10000 then 4 else if x < 50000 then 5 else if x < 100000 then 6 else 7 := by
  simp only [place, bucketBounds, List.findIdx_cons, List.findIdx_nil, Bool.cond_decide]
  split_ifs <;> rfl

/-- The chain of comparisons finds the bucket of a latency. -/
theorem bucketsOf_recordLatency (hist : LatencyHistogram) (latencyUs : Int64) :
    bucketsOf (recordLatency hist latencyUs) = (bucketsOf hist).mapIdx fun k b =>
      (b.1, b.2 + if place bucketBounds latencyUs.toInt = k then 1 else 0) := by
  rw [place_bucketBounds, recordLatency]
  simp only [Int64.lt_iff_toInt_lt]
  change bucketsOf (if latencyUs.toInt < 100 then _ else if latencyUs.toInt < 500 then _
    else if latencyUs.toInt < 1000 then _ else if latencyUs.toInt < 5000 then _
    else if latencyUs.toInt < 10000 then _ else if latencyUs.toInt < 50000 then _
    else if latencyUs.toInt < 100000 then _ else _) = _
  split_ifs <;>
    simp only [bucketsOf, List.mapIdx_cons, List.mapIdx_nil, reduceCtorEq, OfNat.ofNat_ne_zero,
      one_ne_zero, Nat.reduceEqDiff, ↓reduceIte, UInt64.add_zero]

/-- The sum of the latencies as it is kept, modulo two to the 64. -/
def sumOf (latencies : List Int64) : UInt64 :=
  latencies.foldl (fun sum latencyUs => sum + latencyUs.toUInt64) 0

/-- The histogram of a list of latencies. -/
structure Recorded (latencies : List Int64) (hist : LatencyHistogram) : Prop where
  count : hist.count = UInt64.ofNat latencies.length
  sum : hist.sumUs = sumOf latencies
  buckets : bucketsOf hist = bucketNames.mapIdx fun k le =>
    (le, UInt64.ofNat (tally bucketBounds Int64.toInt latencies k))

theorem recorded_nil : Recorded [] {} where
  count := rfl
  sum := rfl
  buckets := rfl

theorem Recorded.snoc {latencies : List Int64} {hist : LatencyHistogram} (h : Recorded latencies hist)
    (latencyUs : Int64) : Recorded (latencies ++ [latencyUs]) (recordLatency hist latencyUs) := by
  have hcount : (recordLatency hist latencyUs).count = hist.count + 1 := by
    rw [recordLatency]
    split_ifs <;> rfl
  have hsum : (recordLatency hist latencyUs).sumUs = hist.sumUs + latencyUs.toUInt64 := by
    rw [recordLatency]
    split_ifs <;> rfl
  refine ⟨?_, ?_, ?_⟩
  · rw [hcount, h.count, length_snoc]
  · rw [hsum, h.sum, sumOf, sumOf, List.foldl_append, List.foldl_cons, List.foldl_nil]
  · rw [bucketsOf_recordLatency, h.buckets, List.mapIdx_mapIdx]
    apply congrArg (fun f => List.mapIdx f bucketNames)
    ext k le : 2
    rw [tally_append, tally_singleton, UInt64.ofNat_add]
    dsimp only [Function.comp]
    split_ifs <;> rfl

/-- The running sums of the bucket lines, modulo two to the 64. -/
theorem bucketSamples_mapIdx (name : Bytes) (names : List Bytes) (f : ℕ → ℕ) (n : ℕ) :
    bucketSamples name (UInt64.ofNat n) (names.mapIdx fun k le => (le, UInt64.ofNat (f k))) =
      names.mapIdx fun k le => ⟨name ++ lit "_bucket", [(lit "le", le)],
        .number ((n + ∑ j ∈ Finset.range (k + 1), f j) % 2 ^ 64 : ℕ), none⟩ := by
  induction names generalizing f n with
  | nil => rfl
  | cons le names ih =>
    rw [List.mapIdx_cons, List.mapIdx_cons, bucketSamples, ← UInt64.ofNat_add, ih]
    apply congrArg₂
    · simp
    · apply congrArg (fun f => List.mapIdx f names)
      ext k le : 2
      rw [Finset.sum_range_succ' _ (k + 1), Nat.add_assoc, Nat.add_comm (f 0)]

/-- What a scrape should show of a list of latencies: for every bound how many are below it, and
all of them behind the last one. -/
def latencySamples (seconds : UInt64 → ℕ) (name : Bytes) (latencies : List Int64) : List Sample :=
  (List.zipWith (fun le n => ⟨name ++ lit "_bucket", [(lit "le", le)], .number (n % 2 ^ 64 : ℕ), none⟩)
    bucketNames (bucketBounds.map (fun bound => latencies.countP fun l => l.toInt < bound) ++
      [latencies.length])) ++
    [⟨name ++ lit "_sum", [], .number (seconds (sumOf latencies) / 10 ^ 6), none⟩,
      ⟨name ++ lit "_count", [], .number (latencies.length % 2 ^ 64 : ℕ), none⟩]

theorem Recorded.samples {latencies : List Int64} {hist : LatencyHistogram} (h : Recorded latencies hist)
    (seconds : UInt64 → ℕ) (name : Bytes) :
    histogramSamples seconds name hist = latencySamples seconds name latencies := by
  have hsorted : bucketBounds.Pairwise (· ≤ ·) := by decide
  have hbelow := sum_tally bucketBounds Int64.toInt latencies hsorted
  have hall := sum_tally_length bucketBounds Int64.toInt latencies
  have hzero : (0 : UInt64) = UInt64.ofNat 0 := rfl
  rw [histogramSamples, latencySamples, h.buckets, h.sum, h.count, hzero, bucketSamples_mapIdx]
  -- one line for each bucket, then the two of the sum and the count
  apply congrArg₂
  · apply List.ext_getElem
    · simp [bucketNames, bucketBounds]
    · intro k hk _
      rw [List.length_mapIdx] at hk
      change k < 8 at hk
      rw [List.getElem_mapIdx, List.getElem_zipWith, Nat.zero_add]
      by_cases hlast : k < bucketBounds.length
      · rw [List.getElem_append_left (by rwa [List.length_map]), List.getElem_map, hbelow k hlast]
      · have hk7 : k = bucketBounds.length := by
          change ¬ k < 7 at hlast
          change k = 7
          omega
        subst hk7
        rw [List.getElem_append_right (by rw [List.length_map]), hall]
        simp
  · simp

end Metrics

section Runs

variable {σ ε : Type} [Storage σ ε] (hash : HashOrder)

/-- A call of the broker with the time that the clock gives for it. A publish records it, under the
mutex of the broker, and shows it. -/
def timedStep (s : Broker σ × MetricsExtras) (i : Method ε × Int64) :
    (Broker σ × MetricsExtras) × List Int64 :=
  match i.1 with
  | .publish _ _ _ => ((s.1.perform hash i.1, Metrics.recordPublishLatency s.2 i.2), [i.2])
  | _ => ((s.1.perform hash i.1, s.2), [])

/-- The counter of the messages and the histogram go together. -/
structure Timed (s : Broker σ × MetricsExtras) (latencies : List Int64) : Prop where
  published : s.1.metrics.messagesPublishedTotal = UInt64.ofNat latencies.length
  recorded : Metrics.Recorded latencies s.2.publishLatency

theorem timed_step (s : Broker σ × MetricsExtras) (latencies : List Int64) (i : Method ε × Int64)
    (h : Timed s latencies) : Timed (timedStep hash s i).1 (latencies ++ (timedStep hash s i).2) := by
  obtain ⟨m, l⟩ := i
  have hother (hm : ∀ f topic data, m ≠ .publish f topic data) :
      Timed (s.1.perform hash m, s.2) (latencies ++ []) := by
    rw [List.append_nil]
    exact ⟨(sameCounts_perform hash s.1 m hm).published.trans h.published, h.recorded⟩
  cases m with
  | publish f topic data =>
    refine ⟨?_, h.recorded.snoc l⟩
    obtain ⟨db, he⟩ := s.1.publish_frame f topic data
    change (s.1.publish f topic data).1.metrics.messagesPublishedTotal =
      UInt64.ofNat (latencies ++ [l]).length
    rw [he, length_snoc, ← h.published]
    rfl
  | accept | subscribe | unsubscribe | handleAck | registerClient | unregisterClient | removeSession
  | stop => exact hother (by simp)

/-- In every state of every run, whatever the clock gives for the publishes, the exported histogram
is read as the histogram of these times, and the count it ends with is the counter of the messages.
A bucket counts the times strictly below its bound. -/
theorem latencies_exported (charset : Charset) (seconds : UInt64 → ℕ) (db : σ)
    (is : List (Method ε × Int64)) :
    Reads charset.readable
        (Metrics.exportHistogram seconds (lit "metricmq_publish_latency_seconds")
          (lit "Publish operation latency in seconds")
          (run (timedStep hash) (Broker.start db, {}) is).1.2.publishLatency ++ lit "\n")
        (Metrics.latencySamples seconds (lit "metricmq_publish_latency_seconds")
          (run (timedStep hash) (Broker.start db, {}) is).2) ∧
      (run (timedStep hash) (Broker.start db, {}) is).1.1.metrics.messagesPublishedTotal =
        UInt64.ofNat (run (timedStep hash) (Broker.start db, {}) is).2.length := by
  have h := run_invariant (C := fun (_ : Broker σ × MetricsExtras) (_ : Method ε × Int64) => True) Timed
    (fun s latencies i hs _ => timed_step hash s latencies i hs) (Broker.start db, {}) [] is
    ⟨rfl, Metrics.recorded_nil⟩ (meets_true _ is)
  rw [List.nil_append] at h
  refine ⟨?_, h.published⟩
  rw [← h.recorded.samples]
  exact Metrics.reads_exportHistogram charset seconds _ _ _ (by decide) (by decide)

end Runs

end MetricMQ
