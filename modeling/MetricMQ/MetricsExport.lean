import MetricMQ.Methods
import MetricMQ.TextFormat

/-! `Metrics::exportPrometheus` and what a scrape reads out of it. Topics come from clients and
are written into quoted label values as they are. -/
namespace MetricMQ

open ByteString Std Machine TextFormat

structure LatencyHistogram where
  count : UInt64 := 0
  sumUs : UInt64 := 0
  bucketLt100us : UInt64 := 0
  bucketLt500us : UInt64 := 0
  bucketLt1ms : UInt64 := 0
  bucketLt5ms : UInt64 := 0
  bucketLt10ms : UInt64 := 0
  bucketLt50ms : UInt64 := 0
  bucketLt100ms : UInt64 := 0
  bucketInf : UInt64 := 0

/-- What is exported beside the counters of `Metrics`: measured times, and errors, which no
method counts. -/
structure MetricsExtras where
  errorsTotal : UInt64 := 0
  publishLatency : LatencyHistogram := {}
  deliveryLatency : LatencyHistogram := {}

inductive MetricType
  | counter
  | gauge
  | histogram

def MetricType.text : MetricType → Bytes
  | .counter => lit "counter"
  | .gauge => lit "gauge"
  | .histogram => lit "histogram"

/-- A metric without labels; unsigned and signed values are printed alike. -/
structure ScalarMetric where
  name : Bytes
  help : Bytes
  type : MetricType
  value : ℤ

namespace Metrics

/-- The `# HELP` and `# TYPE` lines. -/
def describe (name help : Bytes) (type : MetricType) : Bytes :=
  (lit "# HELP " ++ name ++ lit " " ++ help ++ lit "\n") ++
    (lit "# TYPE " ++ name ++ lit " " ++ type.text ++ lit "\n")

def plainLine (name value : Bytes) : Bytes := name ++ lit " " ++ value ++ lit "\n"

def labelledLine (name label text value : Bytes) : Bytes :=
  name ++ lit "\x7b" ++ label ++ lit "=\"" ++ text ++ lit "\"\x7d " ++ value ++ lit "\n"

def exportScalar (s : ScalarMetric) : Bytes :=
  describe s.name s.help s.type ++ (plainLine s.name (toDecimalInt s.value) ++ lit "\n")

def scalarMetrics (m : Metrics) (x : MetricsExtras) : List ScalarMetric :=
  [⟨lit "metricmq_messages_published_total", lit "Total number of messages published", .counter,
      m.messagesPublishedTotal.toNat⟩,
    ⟨lit "metricmq_messages_delivered_total", lit "Total number of messages delivered to subscribers",
      .counter, m.messagesDeliveredTotal.toNat⟩,
    ⟨lit "metricmq_subscriptions_total", lit "Total number of subscriptions", .counter,
      m.subscriptionsTotal.toNat⟩,
    ⟨lit "metricmq_unsubscriptions_total", lit "Total number of unsubscriptions", .counter,
      m.unsubscriptionsTotal.toNat⟩,
    ⟨lit "metricmq_connections_total", lit "Total number of client connections", .counter,
      m.connectionsTotal.toNat⟩,
    ⟨lit "metricmq_disconnections_total", lit "Total number of client disconnections", .counter,
      m.disconnectionsTotal.toNat⟩,
    ⟨lit "metricmq_acks_total", lit "Total number of message acknowledgements", .counter,
      m.acksTotal.toNat⟩,
    ⟨lit "metricmq_errors_total", lit "Total number of errors", .counter, x.errorsTotal.toNat⟩,
    ⟨lit "metricmq_active_connections", lit "Current number of active connections", .gauge,
      m.activeConnections.toInt⟩,
    ⟨lit "metricmq_active_subscribers", lit "Current number of active subscribers", .gauge,
      m.activeSubscribers.toInt⟩,
    ⟨lit "metricmq_topics", lit "Current number of topics with subscribers", .gauge, m.topicCount.toInt⟩]

def bucketsOf (hist : LatencyHistogram) : List (Bytes × UInt64) :=
  [(lit "0.0001", hist.bucketLt100us), (lit "0.0005", hist.bucketLt500us),
    (lit "0.001", hist.bucketLt1ms), (lit "0.005", hist.bucketLt5ms), (lit "0.01", hist.bucketLt10ms),
    (lit "0.05", hist.bucketLt50ms), (lit "0.1", hist.bucketLt100ms), (lit "+Inf", hist.bucketInf)]

/-- The bucket lines with their running sum. -/
def exportBuckets (name : Bytes) : UInt64 → List (Bytes × UInt64) → Bytes
  | _, [] => []
  | cumulative, (le, n) :: buckets =>
    labelledLine (name ++ lit "_bucket") (lit "le") le (toDecimal (cumulative + n).toNat) ++
      exportBuckets name (cumulative + n) buckets

section Export

-- `sum / 1000000.0`, computed and rounded to six decimals in floating point, in millionths
variable (seconds : UInt64 → ℕ)

def exportHistogram (name help : Bytes) (hist : LatencyHistogram) : Bytes :=
  describe name help .histogram ++ (exportBuckets name 0 (bucketsOf hist) ++
    (plainLine (name ++ lit "_sum") (toFixed 6 (seconds hist.sumUs)) ++
      plainLine (name ++ lit "_count") (toDecimal hist.count.toNat)))

/-- Everything in front of the per-topic metrics. -/
def exportGlobal (m : Metrics) (x : MetricsExtras) : Bytes :=
  (m.scalarMetrics x).flatMap exportScalar ++
    ((exportHistogram seconds (lit "metricmq_publish_latency_seconds")
        (lit "Publish operation latency in seconds") x.publishLatency ++ lit "\n") ++
      (exportHistogram seconds (lit "metricmq_delivery_latency_seconds")
        (lit "Message delivery latency in seconds") x.deliveryLatency ++ lit "\n"))

/-- One loop over a per-topic map; the topic is not escaped. -/
def exportTopics (name help : Bytes) (type : MetricType) (entries : List (Bytes × ℤ)) : Bytes :=
  if entries = [] then []
  else
    describe name help type ++
      (entries.flatMap (fun e => labelledLine name (lit "topic") e.1 (toDecimalInt e.2)) ++ lit "\n")

def topicMessagesName : Bytes := lit "metricmq_topic_messages_total"

def topicSubscribersName : Bytes := lit "metricmq_topic_subscribers"

def messageEntries (m : Metrics) : List (Bytes × ℤ) :=
  m.topicMessages.toList.map fun e => (e.1, (e.2.toNat : ℤ))

def subscriberEntries (m : Metrics) : List (Bytes × ℤ) :=
  m.topicSubscribers.toList.map fun e => (e.1, e.2.toInt)

def exportPrometheus (m : Metrics) (x : MetricsExtras) : Bytes :=
  exportGlobal seconds m x ++
    (exportTopics topicMessagesName (lit "Messages published per topic") .counter m.messageEntries ++
      exportTopics topicSubscribersName (lit "Current subscribers per topic") .gauge m.subscriberEntries)

end Export

section Reading

variable (charset : Charset)

theorem reads_describe (name help : Bytes) (type : MetricType) (hn : isMetricName name = true)
    (hh : 10 ∉ help) : Reads charset.readable (describe name help type) [] := by
  have hname := not_mem_name isNameStart isNameChar name hn 10 (by decide) (by decide)
  have htype : 10 ∉ type.text := by cases type <;> decide
  have hcomment (keyword text : Bytes) (hk : 10 ∉ keyword) (ht : 10 ∉ text) :
      Reads charset.readable (35 :: (keyword ++ name ++ lit " " ++ text) ++ [10]) [] := by
    refine reads_comment _ ?_
    simp only [List.mem_append, not_or]
    exact ⟨⟨⟨hk, hname⟩, by decide⟩, ht⟩
  exact (hcomment (lit " HELP ") help (by decide) hh).append
    (hcomment (lit " TYPE ") type.text (by decide) htype)

variable {text : Bytes} {v : Value}

theorem reads_plainLine (name : Bytes) (hn : isMetricName name = true) (h : Numeral text v) :
    Reads charset.readable (plainLine name text) [⟨name, [], v, none⟩] := by
  have he : plainLine name text = name ++ 32 :: text ++ [10] := by
    have hs : lit " " = [32] := rfl
    have hl : lit "\n" = [10] := rfl
    simp only [plainLine, hs, hl, List.append_assoc, List.cons_append, List.nil_append]
  rw [he]
  exact reads_unlabelled name hn h

theorem reads_labelledLine (name label w : Bytes) (hn : isMetricName name = true)
    (hl : isLabelName label = true) (hp : Plain w) (hw : charset.readable w = true) (h : Numeral text v) :
    Reads charset.readable (labelledLine name label w text) [⟨name, [(label, w)], v, none⟩] := by
  have he : labelledLine name label w text = name ++ (labelText label w ++ 32 :: text) ++ [10] := by
    have hopen : lit "\x7b" = [123] := rfl
    have heq : lit "=\"" = [61, 34] := rfl
    have hclose : lit "\"\x7d " = [34, 125, 32] := rfl
    have hend : lit "\n" = [10] := rfl
    simp only [labelledLine, labelText, escape_plain w hp, hopen, heq, hclose, hend, List.append_assoc,
      List.cons_append, List.nil_append]
  rw [he]
  exact reads_labelled name label w hn hl hw h

theorem reads_exportScalar (s : ScalarMetric) (hn : isMetricName s.name = true) (hh : 10 ∉ s.help) :
    Reads charset.readable (exportScalar s) [⟨s.name, [], .number s.value, none⟩] :=
  (reads_describe charset s.name s.help s.type hn hh).append
    ((reads_plainLine charset s.name hn (numeral_toDecimalInt s.value)).append reads_blank)

/-- The buckets as their lines show them. -/
def bucketSamples (name : Bytes) : UInt64 → List (Bytes × UInt64) → List Sample
  | _, [] => []
  | cumulative, (le, n) :: buckets =>
    ⟨name ++ lit "_bucket", [(lit "le", le)], .number (cumulative + n).toNat, none⟩ ::
      bucketSamples name (cumulative + n) buckets

def histogramSamples (seconds : UInt64 → ℕ) (name : Bytes) (hist : LatencyHistogram) : List Sample :=
  bucketSamples name 0 (bucketsOf hist) ++
    ([⟨name ++ lit "_sum", [], .number (seconds hist.sumUs / 10 ^ 6), none⟩] ++
      [⟨name ++ lit "_count", [], .number hist.count.toNat, none⟩])

def globalSamples (seconds : UInt64 → ℕ) (m : Metrics) (x : MetricsExtras) : List Sample :=
  (m.scalarMetrics x).flatMap (fun s => [⟨s.name, [], .number s.value, none⟩]) ++
    (histogramSamples seconds (lit "metricmq_publish_latency_seconds") x.publishLatency ++
      histogramSamples seconds (lit "metricmq_delivery_latency_seconds") x.deliveryLatency)

theorem reads_exportBuckets (name : Bytes) (hn : isMetricName (name ++ lit "_bucket") = true)
    (buckets : List (Bytes × UInt64))
    (hb : ∀ b ∈ buckets, Plain b.1 ∧ b.1.all (· < 128) = true) (cumulative : UInt64) :
    Reads charset.readable (exportBuckets name cumulative buckets)
      (bucketSamples name cumulative buckets) := by
  induction buckets generalizing cumulative with
  | nil => exact reads_nil
  | cons b buckets ih =>
    rw [List.forall_mem_cons] at hb
    exact (reads_labelledLine charset _ (lit "le") b.1 hn rfl hb.1.1 (charset.ascii _ hb.1.2)
      (numeral_toDecimal _)).append (ih hb.2 _)

theorem bucketsOf_wellFormed (hist : LatencyHistogram) :
    ∀ b ∈ bucketsOf hist, Plain b.1 ∧ b.1.all (· < 128) = true := by
  intro b hb
  have hmem : b.1 ∈ (bucketsOf hist).map Prod.fst := List.mem_map_of_mem hb
  have htable : ∀ t ∈ (bucketsOf hist).map Prod.fst, Plain t ∧ t.all (· < 128) = true := by
    simp only [bucketsOf, List.map_cons, List.map_nil]
    decide
  exact htable _ hmem

theorem reads_exportHistogram (seconds : UInt64 → ℕ) (name help : Bytes) (hist : LatencyHistogram)
    (hn : ∀ suffix ∈ [[], lit "_bucket", lit "_sum", lit "_count"], isMetricName (name ++ suffix) = true)
    (hh : 10 ∉ help) :
    Reads charset.readable (exportHistogram seconds name help hist ++ lit "\n")
      (histogramSamples seconds name hist) := by
  simp only [List.forall_mem_cons, List.append_nil] at hn
  obtain ⟨hname, hbucket, hsum, hcount, -⟩ := hn
  have h := (reads_describe charset name help .histogram hname hh).append
    ((reads_exportBuckets charset name hbucket _ (bucketsOf_wellFormed hist) 0).append
      ((reads_plainLine charset _ hsum (numeral_toFixed 6 (seconds hist.sumUs))).append
        (reads_plainLine charset _ hcount (numeral_toDecimal hist.count.toNat))))
  have hblank := h.append reads_blank
  rw [List.append_nil, List.nil_append] at hblank
  exact hblank

/-- Neither of the two per-topic names. -/
def Global (s : Sample) : Prop := s.name ≠ topicMessagesName ∧ s.name ≠ topicSubscribersName

instance (s : Sample) : Decidable (Global s) := instDecidableAnd

theorem scalarMetrics_wellFormed (m : Metrics) (x : MetricsExtras) :
    ∀ s ∈ m.scalarMetrics x, isMetricName s.name = true ∧ 10 ∉ s.help ∧
      s.name ≠ topicMessagesName ∧ s.name ≠ topicSubscribersName := by
  intro s hs
  have hmem : (s.name, s.help) ∈ (m.scalarMetrics x).map fun s => (s.name, s.help) :=
    List.mem_map_of_mem hs
  have htable : ∀ p ∈ (m.scalarMetrics x).map (fun s => (s.name, s.help)), isMetricName p.1 = true ∧
      10 ∉ p.2 ∧ p.1 ≠ topicMessagesName ∧ p.1 ≠ topicSubscribersName := by
    simp only [scalarMetrics, List.map_cons, List.map_nil]
    decide
  exact htable _ hmem

theorem reads_exportGlobal (seconds : UInt64 → ℕ) (m : Metrics) (x : MetricsExtras) :
    Reads charset.readable (exportGlobal seconds m x) (globalSamples seconds m x) := by
  refine Reads.append ?_ (Reads.append ?_ ?_)
  · refine reads_flatMap _ _ _ ?_
    intro s hs
    obtain ⟨hn, hh, -⟩ := scalarMetrics_wellFormed m x s hs
    exact reads_exportScalar charset s hn hh
  · exact reads_exportHistogram charset seconds _ _ _ (by decide) (by decide)
  · exact reads_exportHistogram charset seconds _ _ _ (by decide) (by decide)

theorem global_histogramSamples (seconds : UInt64 → ℕ) (name : Bytes) (hist : LatencyHistogram)
    (hn : ∀ suffix ∈ [lit "_bucket", lit "_sum", lit "_count"],
      name ++ suffix ≠ topicMessagesName ∧ name ++ suffix ≠ topicSubscribersName) :
    ∀ s ∈ histogramSamples seconds name hist, Global s := by
  simp only [List.forall_mem_cons] at hn
  obtain ⟨hbucket, hsum, hcount, -⟩ := hn
  have hbuckets (buckets : List (Bytes × UInt64)) (cumulative : UInt64) :
      ∀ s ∈ bucketSamples name cumulative buckets, Global s := by
    induction buckets generalizing cumulative with
    | nil => simp [bucketSamples]
    | cons b buckets ih => exact List.forall_mem_cons.mpr ⟨hbucket, ih _⟩
  intro s hs
  rcases List.mem_append.mp hs with hs | hs
  · exact hbuckets _ _ s hs
  · rcases List.mem_append.mp hs with hs | hs
    · rw [List.mem_singleton.mp hs]
      exact hsum
    · rw [List.mem_singleton.mp hs]
      exact hcount

theorem global_globalSamples (seconds : UInt64 → ℕ) (m : Metrics) (x : MetricsExtras) :
    ∀ s ∈ globalSamples seconds m x, Global s := by
  intro s hs
  rcases List.mem_append.mp hs with hs | hs
  · obtain ⟨t, ht, hst⟩ := List.mem_flatMap.mp hs
    rw [List.mem_singleton.mp hst]
    exact (scalarMetrics_wellFormed m x t ht).2.2
  · rcases List.mem_append.mp hs with hs | hs
    · exact global_histogramSamples seconds _ _ (by decide) s hs
    · exact global_histogramSamples seconds _ _ (by decide) s hs

def topicSamples (name : Bytes) (entries : List (Bytes × ℤ)) : List Sample :=
  entries.map fun e => ⟨name, [(lit "topic", e.1)], .number e.2, none⟩

theorem reads_exportTopics (name help : Bytes) (type : MetricType) (entries : List (Bytes × ℤ))
    (hn : isMetricName name = true) (hh : 10 ∉ help)
    (he : ∀ e ∈ entries, Plain e.1 ∧ charset.readable e.1 = true) :
    Reads charset.readable (exportTopics name help type entries) (topicSamples name entries) := by
  rw [exportTopics]
  split_ifs with hnil
  · rw [hnil]
    exact reads_nil
  · have hlines : Reads charset.readable
        (entries.flatMap fun e => labelledLine name (lit "topic") e.1 (toDecimalInt e.2))
        (entries.flatMap fun e => [⟨name, [(lit "topic", e.1)], .number e.2, none⟩]) := by
      refine reads_flatMap _ _ _ ?_
      intro e hmem
      obtain ⟨hp, hr⟩ := he e hmem
      exact reads_labelledLine charset name (lit "topic") e.1 hn rfl hp hr (numeral_toDecimalInt e.2)
    have h := (reads_describe charset name help type hn hh).append (hlines.append reads_blank)
    rw [List.nil_append, List.append_nil, ← List.map_eq_flatMap] at h
    exact h

end Reading

section Faithful

variable (charset : Charset) (seconds : UInt64 → ℕ)

/-- The metrics as they would be had no topic been counted. -/
def withoutTopics (m : Metrics) : Metrics := { m with topicMessages := ∅, topicSubscribers := ∅ }

/-- A scrape reads the two per-topic maps out of the export, and beside them the samples it
would read if there were no topics. -/
def Faithful (m : Metrics) (x : MetricsExtras) : Prop :=
  ∃ samples, decode charset.readable (exportPrometheus seconds m x) = some samples ∧
    (samples.filter (·.name = topicMessagesName)).Perm (topicSamples topicMessagesName m.messageEntries) ∧
    (samples.filter (·.name = topicSubscribersName)).Perm
      (topicSamples topicSubscribersName m.subscriberEntries) ∧
    decode charset.readable (exportPrometheus seconds m.withoutTopics x) =
      some (samples.filter fun s => Global s)

/-- A topic that its quoted label value shows as it is. -/
def Exportable (t : Bytes) : Prop := Plain t ∧ charset.readable t = true

theorem count_labelledLine (name label w text : Bytes) (hn : 92 ∉ name) (hl : 92 ∉ label)
    (ht : 92 ∉ text) : (labelledLine name label w text).count 92 = w.count 92 := by
  have hopen : (lit "\x7b").count 92 = 0 := by decide
  have heq : (lit "=\"").count 92 = 0 := by decide
  have hclose : (lit "\"\x7d ").count 92 = 0 := by decide
  have hend : (lit "\n").count 92 = 0 := by decide
  simp only [labelledLine, List.count_append, List.count_eq_zero.mpr hn, List.count_eq_zero.mpr hl,
    List.count_eq_zero.mpr ht, hopen, heq, hclose, hend, Nat.zero_add, Nat.add_zero]

/-- All backslashes of a per-topic section come from its topics. -/
theorem count_exportTopics (name help : Bytes) (type : MetricType) (entries : List (Bytes × ℤ))
    (hd : 92 ∉ describe name help type) (hn : 92 ∉ name) :
    (exportTopics name help type entries).count 92 = ((entries.map Prod.fst).map (List.count 92)).sum := by
  rw [exportTopics]
  split_ifs with hnil
  · rw [hnil]
    rfl
  · have hline (e : Bytes × ℤ) :
        (labelledLine name (lit "topic") e.1 (toDecimalInt e.2)).count 92 = e.1.count 92 :=
      count_labelledLine name _ _ _ hn (by decide) ((numeral_toDecimalInt e.2).not_mem 92 (by decide))
    have hend : (lit "\n").count 92 = 0 := by decide
    rw [List.count_append, List.count_append, List.count_eq_zero.mpr hd, hend, List.count_flatMap,
      List.map_map, Nat.zero_add, Nat.add_zero]
    congr 1
    exact List.map_congr_left fun e _ => hline e

theorem sum_filter_add_le {α : Type} (f : α → ℕ) (p q : α → Bool) (hpq : ∀ a, p a = true → q a = false)
    (l : List α) : ((l.filter p).map f).sum + ((l.filter q).map f).sum ≤ (l.map f).sum := by
  induction l with
  | nil => exact le_rfl
  | cons a l ih =>
    cases hp : p a with
    | true =>
      rw [List.filter_cons_of_pos hp, List.filter_cons_of_neg (by simp [hpq a hp])]
      simp only [List.map_cons, List.sum_cons]
      omega
    | false =>
      rw [List.filter_cons_of_neg (by simp [hp]), List.filter_cons]
      split_ifs
      · simp only [List.map_cons, List.sum_cons]
        omega
      · simp only [List.map_cons, List.sum_cons]
        omega

theorem backslashes_topicSamples (name : Bytes) (entries : List (Bytes × ℤ)) :
    ((topicSamples name entries).map fun s => backslashes s.labels).sum =
      ((entries.map Prod.fst).map fun t => (escape t).count 92).sum := by
  rw [topicSamples, List.map_map, List.map_map]
  rfl

/-- What the text behind the global metrics decodes to, given what a scrape must find. -/
theorem exportable_of_decode (text : Bytes) (ys : List Sample) (messages subscribers : List (Bytes × ℤ))
    (hys : decode charset.readable text = some ys)
    (hcount : text.count 92 = (((messages ++ subscribers).map Prod.fst).map (List.count 92)).sum)
    (hm : (ys.filter (·.name = topicMessagesName)).Perm (topicSamples topicMessagesName messages))
    (hs : (ys.filter (·.name = topicSubscribersName)).Perm
      (topicSamples topicSubscribersName subscribers)) :
    ∀ e ∈ messages ++ subscribers, Exportable charset e.1 := by
  obtain ⟨hread, hle⟩ := decode_spec text ys hys
  have hsum := sum_filter_add_le (fun s => backslashes s.labels) (fun s => s.name = topicMessagesName)
    (fun s => s.name = topicSubscribersName) (fun s h => by
      rw [decide_eq_true_eq] at h
      rw [decide_eq_false_iff_not, h]
      decide) ys
  rw [(hm.map _).sum_nat, (hs.map _).sum_nat, backslashes_topicSamples, backslashes_topicSamples] at hsum
  -- spelling the topics as the samples show them takes all the backslashes there are
  have hplain : ∀ t ∈ (messages ++ subscribers).map Prod.fst, Plain t := by
    apply plain_of_sum_count_le
    rw [List.map_append, List.map_append, List.sum_append]
    rw [List.map_append] at hcount
    omega
  intro e he
  refine ⟨hplain e.1 (List.mem_map_of_mem he), ?_⟩
  -- and a reader shows only labels it takes for text
  have hsample (name : Bytes) (entries : List (Bytes × ℤ)) (hin : e ∈ entries)
      (hp : (ys.filter (·.name = name)).Perm (topicSamples name entries)) :
      charset.readable e.1 = true := by
    have hmem : (⟨name, [(lit "topic", e.1)], .number e.2, none⟩ : Sample) ∈ topicSamples name entries :=
      List.mem_map_of_mem hin
    have hys := List.mem_of_mem_filter (hp.mem_iff.mpr hmem)
    exact hread _ hys (lit "topic", e.1) List.mem_cons_self
  rcases List.mem_append.mp he with he | he
  · exact hsample _ _ he hm
  · exact hsample _ _ he hs

theorem filter_name_eq_nil (name : Bytes) (xs : List Sample) (h : ∀ s ∈ xs, s.name ≠ name) :
    xs.filter (·.name = name) = [] := by
  rw [List.filter_eq_nil_iff]
  intro s hs
  rw [decide_eq_true_eq]
  exact h s hs

theorem name_topicSamples (name : Bytes) (entries : List (Bytes × ℤ)) :
    ∀ s ∈ topicSamples name entries, s.name = name := by
  intro s hs
  obtain ⟨e, -, rfl⟩ := List.mem_map.mp hs
  rfl

theorem filter_topicSamples (name : Bytes) (entries : List (Bytes × ℤ)) :
    (topicSamples name entries).filter (·.name = name) = topicSamples name entries := by
  rw [List.filter_eq_self]
  intro s hs
  rw [decide_eq_true_eq]
  exact name_topicSamples name entries s hs

theorem filter_globalSamples (m : Metrics) (x : MetricsExtras) :
    (globalSamples seconds m x).filter (fun s => Global s) = globalSamples seconds m x := by
  rw [List.filter_eq_self]
  intro s hs
  exact decide_eq_true (global_globalSamples seconds m x s hs)

theorem filter_global_topicSamples (name : Bytes) (entries : List (Bytes × ℤ))
    (hname : name = topicMessagesName ∨ name = topicSubscribersName) :
    (topicSamples name entries).filter (fun s => Global s) = [] := by
  rw [List.filter_eq_nil_iff]
  intro s hs
  rw [decide_eq_true_eq, Global, name_topicSamples name entries s hs]
  rcases hname with rfl | rfl
  · exact fun hg => hg.1 rfl
  · exact fun hg => hg.2 rfl

/-- The export is read back faithfully exactly when every topic in it is exportable. -/
theorem faithful_iff (m : Metrics) (x : MetricsExtras) :
    Faithful charset seconds m x ↔
      ∀ e ∈ m.messageEntries ++ m.subscriberEntries, Exportable charset e.1 := by
  have hglobal := reads_exportGlobal charset seconds m x
  have hnames := global_globalSamples seconds m x
  have hwithout : decode charset.readable (exportPrometheus seconds m.withoutTopics x) =
      some (globalSamples seconds m x) := by
    have hempty : exportPrometheus seconds m.withoutTopics x = exportGlobal seconds m x ++ [] := rfl
    rw [hempty, List.append_nil]
    exact hglobal.decode_eq
  have hne : topicSubscribersName ≠ topicMessagesName := by decide
  constructor
  · rintro ⟨samples, hdec, hm, hs, -⟩
    -- the global metrics are whole lines, so what follows them is decoded on its own
    rw [exportPrometheus, hglobal.decode_append] at hdec
    obtain ⟨ys, hys, rfl⟩ := Option.map_eq_some_iff.mp hdec
    rw [List.filter_append, filter_name_eq_nil _ _ fun s hs => (hnames s hs).1, List.nil_append] at hm
    rw [List.filter_append, filter_name_eq_nil _ _ fun s hs => (hnames s hs).2, List.nil_append] at hs
    refine exportable_of_decode charset _ ys _ _ hys ?_ hm hs
    rw [List.count_append, count_exportTopics _ _ _ _ (by decide) (by decide),
      count_exportTopics _ _ _ _ (by decide) (by decide), List.map_append, List.map_append,
      List.sum_append]
  · intro h
    rw [List.forall_mem_append] at h
    have htopics := (reads_exportTopics charset topicMessagesName (lit "Messages published per topic")
      .counter m.messageEntries (by decide) (by decide) h.1).append
      (reads_exportTopics charset topicSubscribersName (lit "Current subscribers per topic")
        .gauge m.subscriberEntries (by decide) (by decide) h.2)
    refine ⟨_, (hglobal.append htopics).decode_eq, ?_, ?_, ?_⟩
    · rw [List.filter_append, List.filter_append, filter_name_eq_nil _ _ fun s hs => (hnames s hs).1,
        filter_topicSamples, filter_name_eq_nil topicMessagesName (topicSamples topicSubscribersName _)
          fun s hs => (name_topicSamples _ _ s hs).symm ▸ hne, List.nil_append, List.append_nil]
    · rw [List.filter_append, List.filter_append, filter_name_eq_nil _ _ fun s hs => (hnames s hs).2,
        filter_topicSamples, filter_name_eq_nil topicSubscribersName (topicSamples topicMessagesName _)
          fun s hs => (name_topicSamples _ _ s hs).symm ▸ hne.symm, List.nil_append, List.nil_append]
    · rw [hwithout, List.filter_append, List.filter_append, filter_globalSamples,
        filter_global_topicSamples _ _ (Or.inl rfl), filter_global_topicSamples _ _ (Or.inr rfl),
        List.append_nil, List.append_nil]

/-- Every topic that one of the two maps counts. -/
def AllTopics (P : Bytes → Prop) (m : Metrics) : Prop :=
  (∀ t ∈ m.topicMessages, P t) ∧ ∀ t ∈ m.topicSubscribers, P t

theorem forall_entries_iff (m : Metrics) (P : Bytes → Prop) :
    (∀ e ∈ m.messageEntries ++ m.subscriberEntries, P e.1) ↔ m.AllTopics P := by
  have hkeys {β : Type} (f : β → ℤ) (map : TreeMap Bytes β) :
      (∀ e ∈ map.toList.map (fun e => (e.1, f e.2)), P e.1) ↔ ∀ t ∈ map, P t := by
    have hfst : (∀ e ∈ map.toList, P e.1) ↔ ∀ t ∈ map.toList.map Prod.fst, P t :=
      (List.forall_mem_map (f := Prod.fst)).symm
    rw [List.forall_mem_map, hfst, TreeMap.map_fst_toList_eq_keys]
    exact forall_congr' fun t => by rw [TreeMap.mem_keys]
  rw [List.forall_mem_append]
  exact and_congr (hkeys (fun n : UInt64 => (n.toNat : ℤ)) m.topicMessages)
    (hkeys Int64.toInt m.topicSubscribers)

theorem forall_mem_insert_iff {β : Type} (P : Bytes → Prop) (map : TreeMap Bytes β) (topic : Bytes)
    (n : β) (h : ∀ t ∈ map, P t) : (∀ t ∈ map.insert topic n, P t) ↔ P topic := by
  constructor
  · intro h'
    exact h' topic TreeMap.mem_insert_self
  · intro hp t ht
    rcases TreeMap.mem_insert.mp ht with he | ht
    · rw [← LawfulEqCmp.eq_of_compare he]
      exact hp
    · exact h t ht

theorem mem_of_mem_decrement (m : Metrics) (topic t : Bytes)
    (h : t ∈ (m.decrementTopicSubscribers topic).topicSubscribers) : t ∈ m.topicSubscribers := by
  rw [decrementTopicSubscribers] at h
  cases hn : m.topicSubscribers[topic]? with
  | none =>
    rw [hn] at h
    exact h
  | some n =>
    rw [hn] at h
    dsimp only at h
    split_ifs at h
    · exact TreeMap.mem_of_mem_erase h
    · rcases TreeMap.mem_insert.mp h with he | h
      · rw [← LawfulEqCmp.eq_of_compare he, TreeMap.mem_iff_isSome_getElem?, hn]
        rfl
      · exact h

theorem allTopics_decrement (P : Bytes → Prop) (m : Metrics) (topic : Bytes) (h : m.AllTopics P) :
    (m.decrementTopicSubscribers topic).AllTopics P := by
  refine ⟨?_, fun t ht => h.2 t (mem_of_mem_decrement m topic t ht)⟩
  have hm : (m.decrementTopicSubscribers topic).topicMessages = m.topicMessages := by
    rw [decrementTopicSubscribers]
    split
    · rfl
    · split_ifs <;> rfl
  rw [hm]
  exact h.1

end Faithful

end Metrics

/-- The topic that a call adds to one of the per-topic maps. -/
def Method.countedTopic {ε : Type} : Method ε → Option Bytes
  | .publish _ topic _ => some topic
  | .subscribe _ topic => some topic
  | _ => none

namespace Broker

variable {σ ε : Type} [Storage σ ε] (hash : HashOrder) (b : Broker σ)

theorem allTopics_perform (P : Bytes → Prop) (m : Method ε) (h : b.metrics.AllTopics P) :
    (b.perform hash m).metrics.AllTopics P ↔ ∀ t ∈ m.countedTopic, P t := by
  have hsame (hm : (b.perform hash m).metrics.topicMessages = b.metrics.topicMessages)
      (hs : (b.perform hash m).metrics.topicSubscribers = b.metrics.topicSubscribers) :
      (b.perform hash m).metrics.AllTopics P := by
    rw [Metrics.AllTopics, hm, hs]
    exact h
  cases m with
  | publish faults topic payload =>
    obtain ⟨db, hp⟩ := b.publish_frame faults topic payload
    rw [perform, hp, Metrics.AllTopics]
    have hins := Metrics.forall_mem_insert_iff P b.metrics.topicMessages topic
      (b.metrics.topicMessages.getD topic 0 + 1) h.1
    have hiff := (and_iff_left h.2).trans hins
    exact hiff.trans (by simp [Method.countedTopic])
  | subscribe session topic =>
    have hins := Metrics.forall_mem_insert_iff P b.metrics.topicSubscribers topic
      (b.metrics.topicSubscribers.getD topic 0 + 1) h.2
    have hiff := (and_iff_right h.1).trans hins
    exact hiff.trans (by simp [Method.countedTopic])
  | unsubscribe session topic =>
    refine iff_of_true ?_ (by simp [Method.countedTopic])
    rw [perform]
    cases hset : b.topicSubscribers[topic]? with
    | none =>
      rw [unsubscribe, hset]
      exact h
    | some set =>
      obtain ⟨hm, hs⟩ := b.unsubscribe_topicMaps session topic set hset
      rw [Metrics.AllTopics, hm, hs]
      exact Metrics.allTopics_decrement P b.metrics.incrementUnsubscriptions topic h
  | accept session =>
    refine iff_of_true ?_ (by simp [Method.countedTopic])
    rcases b.accept_frame (ε := ε) hash session with ha | ha
    · rw [ha]
      exact h
    · rw [ha]
      exact h
  | registerClient c session =>
    obtain ⟨acks, marks, hr⟩ := b.registerClient_frame hash c session
    refine iff_of_true (hsame ?_ ?_) (by simp [Method.countedTopic])
    · rw [perform, hr]
    · rw [perform, hr]
  | removeSession session =>
    obtain ⟨hm, hs⟩ := b.removeSession_topicMaps session
    exact iff_of_true (hsame hm hs) (by simp [Method.countedTopic])
  | handleAck | unregisterClient | stop =>
    exact iff_of_true (hsame rfl rfl) (by simp [Method.countedTopic])

/-- In every state of a run the export is read back faithfully, whatever the measured times,
exactly when every topic the run counts is exportable. -/
theorem export_faithful_iff (charset : Charset) (seconds : UInt64 → ℕ) (db : σ) (ms : List (Method ε)) :
    (∀ pre, pre <+: ms → ∀ x, Metrics.Faithful charset seconds ((start db).after hash pre).metrics x) ↔
      ∀ m ∈ ms, ∀ t ∈ m.countedTopic, Metrics.Exportable charset t := by
  -- what the times are does not matter, so neither does the moment of the scrape
  have hstate (b : Broker σ) : (∀ x, Metrics.Faithful charset seconds b.metrics x) ↔
      b.metrics.AllTopics (Metrics.Exportable charset) := by
    rw [← Metrics.forall_entries_iff]
    exact ⟨fun h => (Metrics.faithful_iff charset seconds b.metrics {}).mp (h {}),
      fun h x => (Metrics.faithful_iff charset seconds b.metrics x).mpr h⟩
  have hstart : (start db).metrics.AllTopics (Metrics.Exportable charset) := by
    constructor
    · intro t ht
      exact absurd ht TreeMap.not_mem_emptyc
    · intro t ht
      exact absurd ht TreeMap.not_mem_emptyc
  have hruns : (∀ pre, pre <+: ms → ∀ x,
        Metrics.Faithful charset seconds ((start db).after hash pre).metrics x) ↔
      ∀ pre, pre <+: ms → ((start db).after hash pre).metrics.AllTopics (Metrics.Exportable charset) :=
    forall_congr' fun pre => forall_congr' fun _ => hstate _
  have hmeets : Meets (methodStep hash) (fun _ m => ∀ t ∈ m.countedTopic, Metrics.Exportable charset t)
      (start db) ms ↔ ∀ m ∈ ms, ∀ t ∈ m.countedTopic, Metrics.Exportable charset t :=
    meets_iff_forall (start db) ms
  rw [hruns, ← hmeets]
  refine forall_prefix_iff_meets (fun _ => True)
    (fun b : Broker σ => b.metrics.AllTopics (Metrics.Exportable charset)) (fun _ _ _ => trivial) ?_
    (start db) ms trivial hstart
  intro b m _ hb
  exact b.allTopics_perform hash _ m hb

/-- One message published on a topic that closes its label value and goes on with lines of
its own: the scrape counts errors that never happened and does not see the topic. -/
theorem topic_forges_sample :
    let topic := lit "x\"\x7d 1\nmetricmq_errors_total 99\n#"
    let metrics := ((start ContractStore.empty).after ⟨id, fun _ _ => Iff.rfl⟩
      ([.publish ⟨(), (), ()⟩ topic []] : List (Method Unit))).metrics
    ¬ Metrics.Faithful .bytes UInt64.toNat metrics {} ∧
      ∃ samples, decode Charset.bytes.readable (Metrics.exportPrometheus UInt64.toNat metrics {}) =
        some samples ∧ (⟨lit "metricmq_errors_total", [], .number 99, none⟩ : Sample) ∈ samples := by
  intro topic metrics
  constructor
  · rw [Metrics.faithful_iff, Metrics.forall_entries_iff]
    intro h
    have hmem : topic ∈ metrics.topicMessages := by decide
    exact absurd (h.1 topic hmem).1 (by decide)
  · have hglobal := Metrics.reads_exportGlobal .bytes UInt64.toNat metrics {}
    have htext : Metrics.exportTopics Metrics.topicMessagesName (lit "Messages published per topic")
          .counter metrics.messageEntries ++
        Metrics.exportTopics Metrics.topicSubscribersName (lit "Current subscribers per topic") .gauge
          metrics.subscriberEntries =
        Metrics.describe Metrics.topicMessagesName (lit "Messages published per topic") .counter ++
          (Metrics.labelledLine Metrics.topicMessagesName (lit "topic") (lit "x") (toDecimal 1) ++
            (Metrics.plainLine (lit "metricmq_errors_total") (toDecimal 99) ++
              ((35 :: lit "\"\x7d 1" ++ [10]) ++ [10]))) := by
      decide +kernel
    -- each of the three lines the topic makes is one that a reader accepts
    have htopics := (Metrics.reads_describe .bytes Metrics.topicMessagesName
      (lit "Messages published per topic") .counter (by decide) (by decide)).append
      ((Metrics.reads_labelledLine .bytes Metrics.topicMessagesName (lit "topic") (lit "x") (by decide) rfl
        (by decide) rfl (numeral_toDecimal 1)).append
      ((Metrics.reads_plainLine .bytes (lit "metricmq_errors_total") (by decide)
        (numeral_toDecimal 99)).append ((reads_comment (lit "\"\x7d 1") (by decide)).append reads_blank)))
    rw [← htext] at htopics
    exact ⟨_, (hglobal.append htopics).decode_eq, by simp⟩

end Broker

end MetricMQ
