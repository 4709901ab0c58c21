import Thanos.QueryRange.Merge

/-! # `MergeResponse` joins series

For streams of each series that come in time order, `matrixMerge` returns every
series once, with the samples of all its streams, each once and in time order
(`matrixMerge_spec`). `MergeResponse` sorts responses by the first timestamp of
their first series, which puts them in time order when those timestamps are
distinct and the responses' ranges do not overlap. -/

namespace Thanos.QueryRange

variable {H : Type}

section Series

/-- `v` is the merge of the series `k` of the streams `S`: its samples are those
of the series in `S`, each once, in time order. -/
structure SeriesOf (S : List (SampleStream H)) (k : String) (v : SampleStream H) : Prop where
  metric : v.metric = k
  sortedSamples : SortedBy Sample.timestampMs v.samples
  sortedHistograms : SortedBy SampleHistogramPair.timestamp v.histograms
  memSamples : ∀ z, z ∈ v.samples ↔ ∃ st ∈ S, st.metric = k ∧ z ∈ st.samples
  memHistograms : ∀ z, z ∈ v.histograms ↔ ∃ st ∈ S, st.metric = k ∧ z ∈ st.histograms

def StreamSorted (st : SampleStream H) : Prop :=
  SortedBy Sample.timestampMs st.samples ∧ SortedBy SampleHistogramPair.timestamp st.histograms

instance (st : SampleStream H) : Decidable (StreamSorted st) :=
  inferInstanceAs (Decidable (_ ∧ _))

/-- Two streams of a series give the same sample at a timestamp they share. -/
def StreamsAgree (a b : SampleStream H) : Prop :=
  (∀ x ∈ a.samples, ∀ y ∈ b.samples, x.timestampMs = y.timestampMs → x = y) ∧
    (∀ x ∈ a.histograms, ∀ y ∈ b.histograms, x.timestamp = y.timestamp → x = y)

instance [DecidableEq H] (a b : SampleStream H) : Decidable (StreamsAgree a b) :=
  inferInstanceAs (Decidable (_ ∧ _))

/-- Two streams of a series in time order. -/
def StreamBefore (a b : SampleStream H) : Prop :=
  TimedBefore Sample.timestampMs a.samples b.samples ∧
    TimedBefore SampleHistogramPair.timestamp a.histograms b.histograms

/-- What the output map of `matrixMerge` holds after the streams `S`. -/
structure Merged (S : List (SampleStream H)) (output : List (String × SampleStream H)) : Prop where
  nodup : (output.map Prod.fst).Nodup
  keys : ∀ k, k ∈ output.map Prod.fst ↔ ∃ st ∈ S, st.metric = k
  series : ∀ p ∈ output, SeriesOf S p.1 p.2

theorem merged_nil : Merged [] ([] : List (String × SampleStream H)) :=
  ⟨List.nodup_nil, by simp, by simp⟩

variable {S : List (SampleStream H)} {output : List (String × SampleStream H)}

theorem Merged.existing (hm : Merged S output) (st : SampleStream H) :
    SeriesOf S st.metric ((output.lookup st.metric).getD ⟨st.labels, [], []⟩) := by
  cases hl : output.lookup st.metric with
  | some v => exact hm.series _ (mem_of_lookup_eq_some hl)
  | none =>
    have hno : ∀ st' ∈ S, st'.metric ≠ st.metric := fun st' hst' he =>
      not_mem_keys_of_lookup_eq_none hl ((hm.keys _).mpr ⟨st', hst', he⟩)
    refine ⟨rfl, List.Pairwise.nil, List.Pairwise.nil, fun z => ?_, fun z => ?_⟩ <;>
      simpa using fun st' hst' he => absurd he (hno st' hst')

theorem exists_mem_append_singleton (st : SampleStream H) (P : SampleStream H → Prop) :
    (∃ st' ∈ S ++ [st], P st') ↔ (∃ st' ∈ S, P st') ∨ P st := by
  simp only [List.mem_append, List.mem_singleton, or_and_right, exists_or, exists_eq_left]

theorem SeriesOf.append_ne {k : String} {v st : SampleStream H} (h : SeriesOf S k v)
    (hne : st.metric ≠ k) : SeriesOf (S ++ [st]) k v := by
  refine ⟨h.metric, h.sortedSamples, h.sortedHistograms, fun z => ?_, fun z => ?_⟩
  · rw [h.memSamples, exists_mem_append_singleton]
    simp [hne]
  · rw [h.memHistograms, exists_mem_append_singleton]
    simp [hne]

/-- Appending a stream of the series `k` that comes after the ones merged. -/
theorem SeriesOf.merge {e st : SampleStream H} (he : SeriesOf S st.metric e) (hs : StreamSorted st)
    (hb : ∀ st' ∈ S, st'.metric = st.metric → StreamBefore st' st) :
    SeriesOf (S ++ [st]) st.metric
      { e with samples := e.samples ++ dropOverlap Sample.timestampMs sliceSamples e.samples st.samples,
               histograms := e.histograms ++ dropOverlap SampleHistogramPair.timestamp sliceHistogram
                 e.histograms st.histograms } := by
  have hbs : TimedBefore Sample.timestampMs e.samples st.samples := by
    intro x hx
    obtain ⟨st', hst', hk, hx'⟩ := (he.memSamples x).mp hx
    exact (hb st' hst' hk).1 x hx'
  have hbh : TimedBefore SampleHistogramPair.timestamp e.histograms st.histograms := by
    intro x hx
    obtain ⟨st', hst', hk, hx'⟩ := (he.memHistograms x).mp hx
    exact (hb st' hst' hk).2 x hx'
  obtain ⟨hss, hms⟩ := dropOverlap_append _ sliceSamples he.sortedSamples hs.1 hbs
  obtain ⟨hsh, hmh⟩ := dropOverlap_append _ sliceHistogram he.sortedHistograms hs.2 hbh
  refine ⟨he.metric, hss, hsh, fun z => ?_, fun z => ?_⟩
  · rw [hms, he.memSamples, exists_mem_append_singleton]
    simp
  · rw [hmh, he.memHistograms, exists_mem_append_singleton]
    simp

/-- One step of `matrixMerge`'s loop keeps `Merged`. -/
theorem Merged.step {st : SampleStream H} (hm : Merged S output) (hs : StreamSorted st)
    (hb : ∀ st' ∈ S, st'.metric = st.metric → StreamBefore st' st) :
    Merged (S ++ [st]) (mergeStream output st) := by
  have hnew := (hm.existing st).merge hs hb
  unfold QueryRange.mergeStream
  refine ⟨nodup_upsert hm.nodup _ _, fun k => ?_, fun p hp => ?_⟩
  · rw [mem_keys_upsert, hm.keys, exists_mem_append_singleton]
    constructor
    · rintro (rfl | h)
      · exact Or.inr rfl
      · exact Or.inl h
    · rintro (h | rfl)
      · exact Or.inr h
      · exact Or.inl rfl
  · rcases (mem_upsert hm.nodup).mp hp with rfl | ⟨hp, hne⟩
    · exact hnew
    · exact (hm.series p hp).append_ne (Ne.symm hne)

/-- The run of `matrixMerge`'s loop over streams of each series in time order. -/
theorem Merged.run (hm : Merged S output) (T : List (SampleStream H))
    (hs : ∀ st ∈ T, StreamSorted st)
    (hb : (S ++ T).Pairwise fun a b => a.metric = b.metric → StreamBefore a b) :
    Merged (S ++ T) (T.foldl mergeStream output) := by
  induction T generalizing S output with
  | nil => simpa using hm
  | cons st T ih =>
    have hstep : Merged (S ++ [st]) (mergeStream output st) :=
      hm.step (hs st List.mem_cons_self) fun st' hst' =>
        (List.pairwise_append.mp hb).2.2 st' hst' st List.mem_cons_self
    have := ih hstep (fun st' h => hs st' (List.mem_cons_of_mem _ h)) (by simpa using hb)
    simpa using this

/-- `matrixMerge` over streams of each series in time order returns each series
once, merged. -/
theorem matrixMerge_spec (resps : List (PrometheusResponse H))
    (hs : ∀ st ∈ resps.flatMap PrometheusResponse.result, StreamSorted st)
    (hb : (resps.flatMap PrometheusResponse.result).Pairwise
      fun a b => a.metric = b.metric → StreamBefore a b) :
    ((matrixMerge resps).map SampleStream.metric).Nodup ∧
      (∀ k, k ∈ (matrixMerge resps).map SampleStream.metric ↔
        ∃ st ∈ resps.flatMap PrometheusResponse.result, st.metric = k) ∧
      ∀ v ∈ matrixMerge resps, SeriesOf (resps.flatMap PrometheusResponse.result) v.metric v := by
  have hm := merged_nil.run (resps.flatMap PrometheusResponse.result) hs (by simpa using hb)
  rw [List.nil_append, List.foldl_flatMap] at hm
  have hperm := List.perm_insertionSort keyLe
    (resps.foldl (fun output resp => resp.result.foldl mergeStream output) [])
  have hkeys : (matrixMerge resps).map SampleStream.metric =
      ((resps.foldl (fun output resp => resp.result.foldl mergeStream output) []).insertionSort
        keyLe).map Prod.fst := by
    rw [matrixMerge, List.map_map]
    exact List.map_congr_left fun p hp => (hm.series p (hperm.subset hp)).metric
  refine ⟨?_, fun k => ?_, fun v hv => ?_⟩
  · rw [hkeys]
    exact (hperm.map Prod.fst).nodup_iff.mpr hm.nodup
  · rw [hkeys, ← hm.keys]
    exact (hperm.map Prod.fst).mem_iff
  · obtain ⟨p, hp, rfl⟩ := List.mem_map.mp hv
    have := hm.series p (hperm.subset hp)
    rwa [this.metric]

end Series

section Responses

instance : Std.Total (byFirstTime (H := H)) where
  total a b := Int.le_total a.minTime b.minTime

instance : IsTrans (PrometheusResponse H) byFirstTime where
  trans _ _ _ := Int.le_trans

theorem mergeResponse_result (rs : List (PrometheusResponse H)) :
    (mergeResponse rs).result = matrixMerge (rs.insertionSort byFirstTime) := by
  cases rs with
  | nil => rfl
  | cons r rs => rfl

/-- The timestamps of a stream's samples, floats and histograms. -/
def SampleStream.times (st : SampleStream H) : List Int :=
  st.samples.map Sample.timestampMs ++ st.histograms.map SampleHistogramPair.timestamp

def PrometheusResponse.times (r : PrometheusResponse H) : List Int :=
  r.result.flatMap SampleStream.times

/-- All timestamps of one response are at or before all of the other's. -/
def TimesBefore (r r' : PrometheusResponse H) : Prop := ∀ t ∈ r.times, ∀ t' ∈ r'.times, t ≤ t'

instance (r r' : PrometheusResponse H) : Decidable (TimesBefore r r') :=
  inferInstanceAs (Decidable (∀ t ∈ r.times, ∀ t' ∈ r'.times, t ≤ t'))

theorem minTime_mem_times (r : PrometheusResponse H) (hne : r.result ≠ [])
    (hfirst : ∀ st ∈ r.result.head?, st.samples ≠ [] ∨ st.histograms ≠ []) :
    r.minTime ∈ r.times := by
  obtain ⟨st, rest, hr⟩ := List.exists_cons_of_ne_nil hne
  have hst := hfirst st (by simp [hr])
  unfold PrometheusResponse.minTime PrometheusResponse.times
  rw [hr, List.flatMap_cons]
  refine List.mem_append_left _ ?_
  unfold SampleStream.times
  cases hs : st.samples with
  | nil =>
    cases hh : st.histograms with
    | nil => simp [hs, hh] at hst
    | cons h _ => simp [hs, hh]
  | cons x _ =>
    cases hh : st.histograms with
    | nil => simp [hs, hh]
    | cons h _ =>
      rcases min_choice x.timestampMs h.timestamp with hm | hm <;> simp [hs, hh, hm]

theorem mem_times_of_sample {r : PrometheusResponse H} {st : SampleStream H} {x : Sample}
    (hst : st ∈ r.result) (hx : x ∈ st.samples) : x.timestampMs ∈ r.times :=
  List.mem_flatMap.mpr ⟨st, hst, List.mem_append_left _ (List.mem_map_of_mem hx)⟩

theorem mem_times_of_histogram {r : PrometheusResponse H} {st : SampleStream H}
    {x : SampleHistogramPair H} (hst : st ∈ r.result) (hx : x ∈ st.histograms) :
    x.timestamp ∈ r.times :=
  List.mem_flatMap.mpr ⟨st, hst, List.mem_append_right _ (List.mem_map_of_mem hx)⟩

/-- Same-series streams of two responses whose times do not interleave come in
time order. -/
theorem streamBefore_of_timesBefore {r r' : PrometheusResponse H} (hrr : TimesBefore r r')
    {a b : SampleStream H} (ha : a ∈ r.result) (hb : b ∈ r'.result)
    (hagree : StreamsAgree a b) :
    StreamBefore a b :=
  ⟨fun x hx y hy => ⟨hrr _ (mem_times_of_sample ha hx) _ (mem_times_of_sample hb hy), hagree.1 x hx y hy⟩,
   fun x hx y hy =>
    ⟨hrr _ (mem_times_of_histogram ha hx) _ (mem_times_of_histogram hb hy), hagree.2 x hx y hy⟩⟩

variable {rs : List (PrometheusResponse H)}

/-- Distinct first timestamps stay distinct in the sorted order. -/
theorem pairwise_minTime_ne_insertionSort
    (hdistinct : ((rs.filter fun r => !r.result.isEmpty).map PrometheusResponse.minTime).Nodup) :
    (rs.insertionSort byFirstTime).Pairwise
      fun r r' => r.result ≠ [] → r'.result ≠ [] → r.minTime ≠ r'.minTime := by
  have hp := List.perm_insertionSort byFirstTime rs
  have hnd := ((hp.filter fun r => !r.result.isEmpty).map PrometheusResponse.minTime).nodup_iff.mpr
    hdistinct
  have := List.pairwise_filter.mp (List.pairwise_map.mp hnd)
  refine this.imp fun h ha hb => h ?_ ?_ <;> simpa [List.isEmpty_iff]

/-- After `byFirstTime`, same-series streams come in time order. -/
theorem pairwise_streamBefore_insertionSort
    (hranges : rs.Pairwise fun r r' => TimesBefore r r' ∨ TimesBefore r' r)
    (hagree : ∀ r ∈ rs, ∀ r' ∈ rs, ∀ a ∈ r.result, ∀ b ∈ r'.result, a.metric = b.metric →
      StreamsAgree a b)
    (hfirst : ∀ r ∈ rs, ∀ st ∈ r.result.head?, st.samples ≠ [] ∨ st.histograms ≠ [])
    (hdistinct : ((rs.filter fun r => !r.result.isEmpty).map PrometheusResponse.minTime).Nodup) :
    (rs.insertionSort byFirstTime).Pairwise
      fun r r' => ∀ a ∈ r.result, ∀ b ∈ r'.result, a.metric = b.metric → StreamBefore a b := by
  have hp := List.perm_insertionSort byFirstTime rs
  have hle := List.pairwise_insertionSort byFirstTime rs
  have hni := (hp.pairwise_iff fun h => h.symm).mpr hranges
  refine (hle.and (hni.and (pairwise_minTime_ne_insertionSort hdistinct))).imp_of_mem ?_
  rintro r r' hr hr' ⟨hle, hni, hne⟩ a ha b hb hk
  have hr0 : r.result ≠ [] := List.ne_nil_of_mem ha
  have hr0' : r'.result ≠ [] := List.ne_nil_of_mem hb
  have hlt : r.minTime < r'.minTime := lt_of_le_of_ne hle (hne hr0 hr0')
  have hm := minTime_mem_times r hr0 (hfirst r (hp.subset hr))
  have hm' := minTime_mem_times r' hr0' (hfirst r' (hp.subset hr'))
  have hrr : TimesBefore r r' := by
    rcases hni with h | h
    · exact h
    · exact absurd (h _ hm' _ hm) (not_le.mpr hlt)
  exact streamBefore_of_timesBefore hrr ha hb (hagree r (hp.subset hr) r' (hp.subset hr') a ha b hb hk)

theorem SeriesOf.of_mem_iff {S S' : List (SampleStream H)} {k : String} {v : SampleStream H}
    (h : SeriesOf S k v) (hS : ∀ st, st ∈ S ↔ st ∈ S') : SeriesOf S' k v :=
  ⟨h.metric, h.sortedSamples, h.sortedHistograms,
   fun z => by simp only [h.memSamples, hS],
   fun z => by simp only [h.memHistograms, hS]⟩

theorem mergeResponse_union (rs : List (PrometheusResponse H))
    (hsorted : ∀ r ∈ rs, ∀ st ∈ r.result, StreamSorted st)
    (hseries : ∀ r ∈ rs, (r.result.map SampleStream.metric).Nodup)
    (hranges : rs.Pairwise fun r r' => TimesBefore r r' ∨ TimesBefore r' r)
    (hagree : ∀ r ∈ rs, ∀ r' ∈ rs, ∀ a ∈ r.result, ∀ b ∈ r'.result, a.metric = b.metric →
      StreamsAgree a b)
    (hfirst : ∀ r ∈ rs, ∀ st ∈ r.result.head?, st.samples ≠ [] ∨ st.histograms ≠ [])
    (hdistinct : ((rs.filter fun r => !r.result.isEmpty).map PrometheusResponse.minTime).Nodup) :
    ((mergeResponse rs).result.map SampleStream.metric).Nodup ∧
      (∀ k, k ∈ (mergeResponse rs).result.map SampleStream.metric ↔
        ∃ r ∈ rs, ∃ st ∈ r.result, st.metric = k) ∧
      ∀ v ∈ (mergeResponse rs).result, SeriesOf (rs.flatMap PrometheusResponse.result) v.metric v := by
  have hp := List.perm_insertionSort byFirstTime rs
  have hmem : ∀ st, st ∈ (rs.insertionSort byFirstTime).flatMap PrometheusResponse.result ↔
      st ∈ rs.flatMap PrometheusResponse.result := by
    intro st
    simp only [List.mem_flatMap, hp.mem_iff]
  have hs : ∀ st ∈ (rs.insertionSort byFirstTime).flatMap PrometheusResponse.result,
      StreamSorted st := by
    intro st hst
    obtain ⟨r, hr, hst⟩ := List.mem_flatMap.mp ((hmem st).mp hst)
    exact hsorted r hr st hst
  have hb : ((rs.insertionSort byFirstTime).flatMap PrometheusResponse.result).Pairwise
      fun a b => a.metric = b.metric → StreamBefore a b := by
    refine List.pairwise_flatMap.mpr ⟨fun r hr => ?_,
      pairwise_streamBefore_insertionSort hranges hagree hfirst hdistinct⟩
    -- within one response every series appears once
    exact (List.pairwise_map.mp (hseries r (hp.subset hr))).imp fun hne heq => absurd heq hne
  obtain ⟨hnd, hkeys, hser⟩ := matrixMerge_spec _ hs hb
  rw [mergeResponse_result]
  refine ⟨hnd, fun k => ?_, fun v hv => (hser v hv).of_mem_iff hmem⟩
  rw [hkeys]
  simp only [List.mem_flatMap, hp.mem_iff]
  constructor
  · rintro ⟨st, ⟨r, hr, hst⟩, hk⟩
    exact ⟨r, hr, st, hst, hk⟩
  · rintro ⟨r, hr, st, hst, hk⟩
    exact ⟨st, ⟨r, hr, hst⟩, hk⟩

end Responses

theorem mergeResponse_union_two_ranges :
    let rs : List (PrometheusResponse Unit) :=
      [⟨[⟨[("__name__", "a")], [⟨1, 0⟩, ⟨1, 10⟩], []⟩, ⟨[("__name__", "b")], [⟨2, 5⟩], []⟩], [], []⟩,
       ⟨[⟨[("__name__", "a")], [⟨1, 10⟩, ⟨1, 20⟩], []⟩, ⟨[("__name__", "c")], [⟨3, 15⟩], []⟩], [], []⟩]
    ((mergeResponse rs).result.map SampleStream.metric).Nodup ∧
      (∀ k, k ∈ (mergeResponse rs).result.map SampleStream.metric ↔
        ∃ r ∈ rs, ∃ st ∈ r.result, st.metric = k) ∧
      ∀ v ∈ (mergeResponse rs).result, SeriesOf (rs.flatMap PrometheusResponse.result) v.metric v :=
  mergeResponse_union _ (by decide +kernel) (by decide +kernel) (by decide +kernel) (by decide +kernel)
    (by decide +kernel) (by decide +kernel)

theorem mergeResponse_boundary_tie_drops_samples :
    (mergeResponse (H := Unit)
      [⟨[⟨[("__name__", "a")], [⟨1, 10⟩, ⟨1, 20⟩], []⟩, ⟨[("__name__", "b")], [⟨2, 10⟩, ⟨2, 20⟩], []⟩], [], []⟩,
       ⟨[⟨[("__name__", "a")], [⟨1, 10⟩], []⟩, ⟨[("__name__", "b")], [⟨2, 0⟩, ⟨2, 10⟩], []⟩], [], []⟩]).result =
      [⟨[("__name__", "a")], [⟨1, 10⟩, ⟨1, 20⟩], []⟩, ⟨[("__name__", "b")], [⟨2, 10⟩, ⟨2, 20⟩], []⟩] := by
  decide +kernel

end Thanos.QueryRange
