import Mathlib.Data.List.Forall2
import Thanos.Downsample.Aggr
import Thanos.Downsample.CounterProtocol

/-! # The counter encoding protocol, from the writer's side

`downsampleFloatBatch` writes the counter sub-chunk of a batch as a frame of
it (`frame`): the first raw sample, the reset-corrected total at the end of
every window, the last raw value at the last window end. `Framed r` adds what
re-downsampling needs: the window end of every raw sample is among the
totals. `downsampleFloatAggrBatch` re-reads the frames of a batch of chunks
and writes a frame of their joined segments again, for any coarser resolution
that `r` divides; `downsampleRawLoop` and `downsampleAggrLoop` cut the series
into such segments. Reading the frames back then refines reading the raw
series (`counterRefines_frames`). -/

namespace Thanos.Downsample

open CounterTotal

/-- A counter sub-chunk framing `seg` at resolution `r`: window totals, with the
end of the window of every raw sample among them. -/
structure Framed (r : Int) (seg : List (Int × ℚ)) (ws : XorChunk) : Prop extends WindowTotals seg ws where
  covers : ∀ p ∈ seg, ∀ l ∈ seg.getLast?, min (currentWindow p.1 r) l.1 ∈ ws.map Prod.fst

/-- The window totals `downsampleBatch` writes for the counter: every window end with
its aggregator's counter. -/
def counterWindows (batch : List (Int × ℚ)) (r : Int) : XorChunk :=
  (batchWindows batch r {}).map fun p => (p.1, p.2.counter)

/-- The counter sub-chunks of a list of aggregate chunks, as their iterators read them. -/
def counterSamples (chks : List AggrChunk) : List (List Sample) :=
  chks.filterMap fun c => (c.get .counter).map XorChunk.samples

theorem FloatAggregator.counter_of_counterState {a : FloatAggregator} {s : ℚ × ℚ}
    (h : a.counterState = some s) : a.counter = s.2 := by
  unfold FloatAggregator.counterState at h
  split at h
  · simp at h
  · cases h; rfl

/-- An aggregator holding the counter state of the samples up to `e`, one at least,
holds their total. -/
theorem counterAt_of_counterState {pts : List (Int × ℚ)} {e : Int} {a : FloatAggregator}
    (h : a.counterState = run none ((pts.filter (·.1 ≤ e)).map Prod.snd)) (he : ∃ q ∈ pts, q.1 ≤ e) :
    counterAt pts e = some a.counter := by
  obtain ⟨q, hq, hqe⟩ := he
  cases hf : pts.filter (·.1 ≤ e) with
  | nil =>
    have : q ∈ pts.filter (·.1 ≤ e) := List.mem_filter.mpr ⟨hq, by simpa using hqe⟩
    simp [hf] at this
  | cons x xs =>
    obtain ⟨s, hs⟩ := run_some (x.2, x.2) (xs.map Prod.snd)
    rw [hf, List.map_cons, run_cons, push_none, hs] at h
    rw [FloatAggregator.counter_of_counterState h]
    simp [counterAt, CounterTotal.total, hf, hs]

theorem head_le_of_sorted {l : List (Int × ℚ)} (hs : l.Pairwise (fun p q => p.1 < q.1)) :
    ∀ q ∈ l.head?, ∀ x ∈ l, q.1 ≤ x.1 := by
  cases l with
  | nil => simp
  | cons y l =>
    intro q hq x hx
    rw [List.head?_cons, Option.mem_def, Option.some.injEq] at hq
    subst hq
    rcases List.mem_cons.mp hx with rfl | hx
    · exact le_rfl
    · exact le_of_lt (List.rel_of_pairwise_cons hs hx)

/-! ## One raw batch -/

section
variable {r : Int} (hr : 0 < r) {batch : List (Int × ℚ)} (hne : batch ≠ [])
  (hsorted : batch.Pairwise (fun p q => p.1 < q.1)) (ht : ∀ q ∈ batch, 0 ≤ q.1)
include hr hne hsorted ht

/-- The windows of a batch frame it. -/
theorem framed_counterWindows : Framed r batch (counterWindows batch r) := by
  have hspec := batchWindows_spec hr hne hsorted ht
  have hfst : (counterWindows batch r).map Prod.fst = (batchWindows batch r {}).map Prod.fst := by
    simp [counterWindows]
  have hend : ∀ p ∈ batchWindows batch r {}, ∃ q ∈ batch, q.1 ≤ p.1 := by
    intro p hp
    obtain ⟨q, hq, he⟩ := hspec.ends p hp
    exact ⟨q, hq, he ▸ le_windowEnd hr (ht q hq) (le_getLast_of_sorted hne hsorted q hq)⟩
  refine ⟨⟨hne, hfst ▸ hspec.sorted, ?_, ?_, ?_⟩, ?_⟩
  · rw [hfst, hspec.last, List.getLast?_eq_some_getLast hne]
    rfl
  · intro p hp q hq
    obtain ⟨w, hw, rfl⟩ := List.mem_map.mp hp
    obtain ⟨x, hx, hxw⟩ := hend w hw
    exact le_trans (head_le_of_sorted hsorted q hq x hx) hxw
  · intro p hp
    obtain ⟨w, hw, rfl⟩ := List.mem_map.mp hp
    exact counterAt_of_counterState (hspec.state w hw) (hend w hw)
  · intro p hp l hl
    rw [List.getLast?_eq_some_getLast hne, Option.mem_def, Option.some.injEq] at hl
    subst hl
    rw [hfst]
    exact hspec.covers p hp

end

/-- `aggrChunkBuilder.add` over windows appends each window's counter to the counter sub-chunk. -/
theorem AggrChunkBuilder.foldl_add_counter (w : List (Int × FloatAggregator)) (ab : AggrChunkBuilder) :
    (w.foldl (fun b p => b.add p.1 p.2) ab).chunks.get .counter =
      (ab.chunks.get .counter).map (· ++ w.map fun p => (p.1, p.2.counter)) := by
  induction w generalizing ab with
  | nil => simp
  | cons p ps ih =>
    rw [List.foldl_cons, ih]
    simp [AggrChunkBuilder.add, Option.map_map, Function.comp_def]

/-- The counter sub-chunk `downsampleFloatBatch` writes is the frame of the batch by its
windows. -/
theorem downsampleFloatBatch_counter {r : Int} (hr : 0 < r) {batch : List (Int × ℚ)} (hne : batch ≠ [])
    (hsorted : batch.Pairwise (fun p q => p.1 < q.1)) (ht : ∀ q ∈ batch, 0 ≤ q.1) :
    (downsampleFloatBatch batch r).chunk.get .counter = some (frame batch (counterWindows batch r)) := by
  obtain ⟨x, xs, rfl⟩ := List.exists_cons_of_ne_nil hne
  simp only [downsampleFloatBatch]
  rw [downsampleBatch_eq_foldl, downsampleBatch_fst hr hne hsorted ht]
  simp only [AggrChunkBuilder.encode, AggrChunk.get_append_self, AggrChunkBuilder.foldl_add_counter]
  simp [newAggrChunkBuilder, AggrChunk.get, frame, counterWindows,
    List.getLast?_eq_some_getLast hne, List.getLastD_eq_getLast?]

/-! ## The raw loop -/

theorem numeric_append (xs ys : List Sample) : numeric (xs ++ ys) = numeric xs ++ numeric ys :=
  List.filterMap_append

/-- `downsampleRawLoop` cuts the numeric samples into non-empty batches, in order. -/
theorem downsampleRawLoopGo_cut (resolution : Int) (q : Nat)
    (fn : List (Int × ℚ) → Int → ChunkMeta) (data : List Sample) :
    ∃ segs : List (List (Int × ℚ)), downsampleRawLoopGo resolution q fn data =
      segs.map (fn · resolution) ∧ segs.flatten = numeric data ∧ ∀ s ∈ segs, s ≠ [] := by
  fun_induction downsampleRawLoopGo resolution q fn data with
  | case1 => exact ⟨[], rfl, rfl, by simp⟩
  | case2 d ds j curW j' batch rest h ih =>
    obtain ⟨segs, hrest, hflat, hne⟩ := ih
    refine ⟨segs, hrest, ?_, hne⟩
    rw [hflat, ← List.take_append_drop j' (d :: ds), numeric_append]
    simp only [batch] at h
    rw [h, List.nil_append, List.take_append_drop]
  | case3 d ds j curW j' batch rest h ih =>
    obtain ⟨segs, hrest, hflat, hne⟩ := ih
    refine ⟨batch :: segs, by rw [List.map_cons, ← hrest], ?_, ?_⟩
    · rw [List.flatten_cons, hflat, ← numeric_append, List.take_append_drop]
    · intro s hs
      rcases List.mem_cons.mp hs with rfl | hs
      · exact h
      · exact hne s hs

/-! ## Re-downsampling framed chunks -/

theorem Framed.forall₂_windowTotals {r : Int} {segs : List (List (Int × ℚ))} {wss : List XorChunk}
    (hw : List.Forall₂ (Framed r) segs wss) : List.Forall₂ WindowTotals segs wss :=
  hw.imp fun _ _ h => h.toWindowTotals

section Rewindow

variable {r r₂ : Int} (hr : 0 < r) (hr₂ : 0 < r₂) (hdvd : r ∣ r₂)
  {segs : List (List (Int × ℚ))} {wss : List XorChunk} {out : List (Int × ℚ)}
  (hw : List.Forall₂ (Framed r) segs wss) (hsorted : segs.flatten.Pairwise (fun p q => p.1 < q.1))
  (ht : ∀ p ∈ segs.flatten, 0 ≤ p.1) (hnn : ∀ p ∈ segs.flatten, 0 ≤ p.2)
  (hR : Reads segs.flatten (List.zipWith frame segs wss) out)

include hw hsorted hR in
theorem Reads.nonneg (ht : ∀ p ∈ segs.flatten, 0 ≤ p.1) : ∀ q ∈ out, 0 ≤ q.1 := by
  intro q hq
  obtain ⟨x, hx, -, -, hxq, -⟩ := hR.between (Framed.forall₂_windowTotals hw) hsorted q hq
  exact le_trans (ht x hx) hxq

include hw hsorted hR ht hr in
/-- Every raw sample's window end at `r` is read, and lies within the series. -/
theorem Reads.cover : ∀ p ∈ segs.flatten, ∃ e ∈ out.map Prod.fst,
    p.1 ≤ e ∧ e ≤ currentWindow p.1 r ∧ ∃ y ∈ segs.flatten, e ≤ y.1 := by
  intro p hp
  obtain ⟨s, hs, hps⟩ := List.mem_flatten.mp hp
  obtain ⟨ws, hsw, hc⟩ := frame_mem_frames hw hs
  have hsne : s ≠ [] := hsw.nonempty
  have hss : s.Pairwise (fun p q => p.1 < q.1) :=
    List.Pairwise.sublist (List.sublist_flatten_of_mem hs) hsorted
  have he := hsw.covers p hps (s.getLast hsne) (by simp [List.getLast?_eq_some_getLast hsne])
  obtain ⟨w, hw', hwe⟩ := List.mem_map.mp he
  have hwf : w ∈ frame s ws := by simp [frame, hw']
  refine ⟨_, hwe ▸ hR.complete _ hc w hwf, ?_, min_le_left _ _, _,
    List.mem_flatten_of_mem hs (List.getLast_mem hsne), min_le_right _ _⟩
  exact le_min (le_currentWindow hr (ht p hp)) (le_getLast_of_sorted hsne hss p hps)

include hsorted hR hnn in
/-- The totals read never drop. -/
theorem Reads.values_sorted : out.Pairwise (fun p q => p.2 ≤ q.2) := by
  refine (List.pairwise_map.mp hR.sorted).imp_of_mem fun hp hq hpq => ?_
  have hx := hR.values _ hp
  have hy := hR.values _ hq
  unfold counterAt CounterTotal.total at hx hy
  exact run_filter_mono hsorted hnn (le_of_lt hpq) hx hy

include hr hr₂ hdvd hw hsorted ht hnn hR in
/-- The heart of re-downsampling: at the end of every window of `r₂` over the read
samples, the counter holds the total of the whole raw series there. Between the
last read sample of the window and its end no raw sample lies, as the window end
of such a sample at `r` would be a later read sample within the window. -/
theorem Reads.window_total (hne : segs.flatten ≠ []) (hone : out ≠ []) :
    ∀ w ∈ batchWindows out r₂ {}, counterAt segs.flatten w.1 = some w.2.counter := by
  have hosorted : out.Pairwise (fun p q => p.1 < q.1) := List.pairwise_map.mp hR.sorted
  have hot := hR.nonneg hw hsorted ht
  have hspec := batchWindows_spec hr₂ hone hosorted hot
  obtain ⟨y', hy', hy'1⟩ := hR.getLast (Framed.forall₂_windowTotals hw) hsorted hne
  have hL : (out.getLast hone).1 = (segs.flatten.getLast hne).1 := by
    rw [List.getLast?_eq_some_getLast hone, Option.some.injEq] at hy'
    rw [hy', hy'1]
  intro w hwin
  obtain ⟨x, hx, hxe⟩ := hspec.ends w hwin
  have hxL : x.1 ≤ (out.getLast hone).1 := le_getLast_of_sorted hone hosorted x hx
  have hxw : x.1 ≤ w.1 := hxe ▸ le_windowEnd hr₂ (hot x hx) hxL
  set F := out.filter (·.1 ≤ w.1) with hF
  have hxF : x ∈ F := List.mem_filter.mpr ⟨hx, by simpa using hxw⟩
  have hFne : F ≠ [] := List.ne_nil_of_mem hxF
  set y := F.getLast hFne
  have hyF : y ∈ F := List.getLast_mem hFne
  have hy : y ∈ out := (List.mem_filter.mp hyF).1
  have hyw : y.1 ≤ w.1 := by simpa using (List.mem_filter.mp hyF).2
  have hmaxF : ∀ z ∈ out, z.1 ≤ w.1 → z.1 ≤ y.1 := fun z hz hzw =>
    le_getLast_of_sorted hFne (hosorted.filter _) z (List.mem_filter.mpr ⟨hz, by simpa using hzw⟩)
  -- no raw sample lies after the last read one in the window
  have halign : ∀ p ∈ segs.flatten, p.1 ≤ w.1 → p.1 ≤ y.1 := by
    intro p hp hpw
    by_contra hlt
    rw [not_le] at hlt
    obtain ⟨e, he, hpe, hecw, l, hl, hel⟩ := hR.cover hr hw hsorted ht p hp
    obtain ⟨z, hz, rfl⟩ := List.mem_map.mp he
    have hxp : x.1 ≤ p.1 := le_trans (hmaxF x hx hxw) (le_of_lt hlt)
    have hwcw : w.1 ≤ currentWindow x.1 r₂ := hxe ▸ min_le_left _ _
    have hsame : currentWindow p.1 r₂ = currentWindow x.1 r₂ :=
      currentWindow_eq_of_le hr₂ (hot x hx) hxp (le_trans hpw hwcw)
    have hzw : z.1 ≤ w.1 := by
      rw [hxe]
      refine le_min ?_ ?_
      · calc z.1 ≤ currentWindow p.1 r := hecw
          _ ≤ currentWindow p.1 r₂ := currentWindow_le_of_dvd hr hr₂ hdvd (ht p hp)
          _ = currentWindow x.1 r₂ := hsame
      · rw [hL]
        exact le_trans hel (le_getLast_of_sorted hne hsorted l hl)
    have := hmaxF z hz hzw
    omega
  -- the window's counter is the last total read in it
  have hFv : (F.map Prod.snd).Pairwise (· ≤ ·) :=
    List.pairwise_map.mpr ((hR.values_sorted hsorted hnn).filter _)
  have hFvne : F.map Prod.snd ≠ [] := by simpa using hFne
  have hcounter : w.2.counter = y.2 := by
    have hst := hspec.state w hwin
    rw [← hF, run_none_of_sorted hFvne hFv] at hst
    rw [FloatAggregator.counter_of_counterState hst, List.getLast_map]
  rw [hcounter, ← hR.values y hy]
  exact counterAt_congr fun p hp => ⟨halign p hp, fun h => le_trans h hyw⟩

include hr hr₂ hdvd hw hsorted ht hnn hR in
/-- The windows of `r₂` over the read samples frame the whole raw series again. -/
theorem Reads.framed_rewindow (hne : segs.flatten ≠ []) :
    Framed r₂ segs.flatten (counterWindows out r₂) := by
  have hw' := Framed.forall₂_windowTotals hw
  have hosorted : out.Pairwise (fun p q => p.1 < q.1) := List.pairwise_map.mp hR.sorted
  have hot := hR.nonneg hw hsorted ht
  obtain ⟨y', hy', hy'1⟩ := hR.getLast hw' hsorted hne
  have hone : out ≠ [] := by
    rintro rfl
    simp at hy'
  have hL : (out.getLast hone).1 = (segs.flatten.getLast hne).1 := by
    rw [List.getLast?_eq_some_getLast hone, Option.some.injEq] at hy'
    rw [hy', hy'1]
  have hspec := batchWindows_spec hr₂ hone hosorted hot
  have hfst : (counterWindows out r₂).map Prod.fst = (batchWindows out r₂ {}).map Prod.fst := by
    simp [counterWindows]
  refine ⟨⟨hne, hfst ▸ hspec.sorted, ?_, ?_, ?_⟩, ?_⟩
  · rw [hfst, hspec.last, hL, List.getLast?_eq_some_getLast hne]
    rfl
  · intro p hp q hq
    obtain ⟨w, hwin, rfl⟩ := List.mem_map.mp hp
    obtain ⟨x, hx, hxe⟩ := hspec.ends w hwin
    obtain ⟨a, ha, -, -, hax, -⟩ := hR.between hw' hsorted x hx
    have hxw : x.1 ≤ w.1 :=
      hxe ▸ le_windowEnd hr₂ (hot x hx) (le_getLast_of_sorted hone hosorted x hx)
    exact le_trans (head_le_of_sorted hsorted q hq a ha) (le_trans hax hxw)
  · intro p hp
    obtain ⟨w, hwin, rfl⟩ := List.mem_map.mp hp
    exact hR.window_total hr hr₂ hdvd hw hsorted ht hnn hne hone w hwin
  · intro p hp l hl
    rw [List.getLast?_eq_some_getLast hne, Option.mem_def, Option.some.injEq] at hl
    subst hl
    obtain ⟨e, he, hpe, hecw, -⟩ := hR.cover hr hw hsorted ht p hp
    obtain ⟨z, hz, rfl⟩ := List.mem_map.mp he
    have hsame : currentWindow z.1 r₂ = currentWindow p.1 r₂ :=
      currentWindow_eq_of_le hr₂ (ht p hp) hpe
        (le_trans hecw (currentWindow_le_of_dvd hr hr₂ hdvd (ht p hp)))
    have hcov := hspec.covers z hz
    rw [windowEnd, hsame, hL] at hcov
    rw [hfst]
    exact hcov

end Rewindow

theorem counterSamples_eq {chks : List AggrChunk} {cs : List XorChunk}
    (h : chks.map (·.get .counter) = cs.map some) : counterSamples chks = cs.map XorChunk.samples := by
  induction chks generalizing cs with
  | nil =>
    cases cs with
    | nil => rfl
    | cons c cs => simp at h
  | cons c chks ih =>
    cases cs with
    | nil => simp at h
    | cons c' cs =>
      simp only [List.map_cons, List.cons.injEq] at h
      simp [counterSamples, h.1, ← ih h.2]

/-- The iterator's samples, increasing from `lastT` on, pass `expandXorChunkIterator` unchanged. -/
theorem expandXorChunkIteratorGo_of_sorted : ∀ (l : List (Int × ℚ)) (lastT : Int),
    l.Pairwise (fun p q => p.1 < q.1) → (∀ q ∈ l, lastT ≤ q.1) → expandXorChunkIteratorGo lastT l = l
  | [], _, _, _ => rfl
  | p :: ps, lastT, hs, hge => by
    have hps : ∀ q ∈ ps, p.1 ≤ q.1 := fun q hq => le_of_lt (List.rel_of_pairwise_cons hs hq)
    simp [expandXorChunkIteratorGo, hge p (by simp),
      expandXorChunkIteratorGo_of_sorted ps p.1 (List.Pairwise.of_cons hs) hps]

/-- Folding the counter callback of `downsampleFloatAggrBatch` over windows: their
counters are appended, and the time range widens to every window end. -/
theorem foldl_counter (ws : List (Int × FloatAggregator)) (s : Int × Int × AggrChunk) :
    let res := ws.foldl
      (fun b p => (min p.1 b.1, max p.1 b.2.1, b.2.2.append .counter (p.1, p.2.counter))) s
    res.2.2.get .counter = (s.2.2.get .counter).map (· ++ ws.map fun p => (p.1, p.2.counter)) ∧
    res.1 ≤ s.1 ∧ s.2.1 ≤ res.2.1 ∧ ∀ w ∈ ws, res.1 ≤ w.1 ∧ w.1 ≤ res.2.1 := by
  induction ws generalizing s with
  | nil => simp
  | cons w ws ih =>
    obtain ⟨ih1, ih2, ih3, ih4⟩ := ih (min w.1 s.1, max w.1 s.2.1, s.2.2.append .counter (w.1, w.2.counter))
    simp only [List.foldl_cons] at ih1 ih2 ih3 ih4 ⊢
    refine ⟨by rw [ih1]; simp [Option.map_map, Function.comp_def], le_trans ih2 (min_le_right _ _),
      le_trans (le_max_right _ _) ih3, ?_⟩
    intro p hp
    rcases List.mem_cons.mp hp with rfl | hp
    · exact ⟨le_trans ih2 (min_le_left _ _), le_trans (le_max_left _ _) ih3⟩
    · exact ih4 p hp

/-- The counter windows `downsampleFloatAggrBatch` appends, and the time range it folds
along. -/
theorem downsampleBatch_counter (buf : List (Int × ℚ)) (r₂ : Int) (s : Int × Int × AggrChunk) :
    let res := downsampleBatch buf r₂ {}
      (fun t agg (s : Int × Int × AggrChunk) =>
        (min t s.1, max t s.2.1, s.2.2.append .counter (t, agg.counter))) s
    res.2.2.2.get .counter = (s.2.2.get .counter).map (· ++ counterWindows buf r₂) ∧
    ∀ w ∈ batchWindows buf r₂ {}, res.2.1 ≤ w.1 ∧ w.1 ≤ res.2.2.1 := by
  intro res
  obtain ⟨h1, -, -, h4⟩ := foldl_counter (batchWindows buf r₂ {}) s
  rw [show res = _ from downsampleBatch_eq_foldl _ _ _ _ _]
  exact ⟨h1, h4⟩

/-- `downsampleFloatAggrBatch` over the chunks of framed segments writes a frame of
the joined segment at the coarser resolution, and passes the range check of
`downsampleAggrLoop` when the window ends stay below `math.MaxInt64`. -/
theorem downsampleFloatAggrBatch_framed {r r₂ : Int} (hr : 0 < r) (hr₂ : 0 < r₂) (hdvd : r ∣ r₂)
    {chks : List AggrChunk} {segs : List (List (Int × ℚ))} {wss : List XorChunk}
    (hw : List.Forall₂ (Framed r) segs wss)
    (hc : chks.map (·.get .counter) = (List.zipWith frame segs wss).map some)
    (hsorted : segs.flatten.Pairwise (fun p q => p.1 < q.1))
    (ht : ∀ p ∈ segs.flatten, 0 ≤ p.1 ∧ p.1 + r₂ ≤ maxInt64) (hnn : ∀ p ∈ segs.flatten, 0 ≤ p.2)
    (hne : segs.flatten ≠ []) :
    ∃ ws, Framed r₂ segs.flatten ws ∧
      (downsampleFloatAggrBatch chks r₂).chunk.get .counter = some (frame segs.flatten ws) ∧
      (downsampleFloatAggrBatch chks r₂).minTime ≠ maxInt64 ∧
      (downsampleFloatAggrBatch chks r₂).maxTime ≠ minInt64 := by
  have ht0 : ∀ p ∈ segs.flatten, 0 ≤ p.1 := fun p hp => (ht p hp).1
  have hw' := Framed.forall₂_windowTotals hw
  obtain ⟨hR, hstate⟩ := applyCounterResets_frames hw' hsorted hnn
  rw [← counterSamples_eq hc] at hR hstate
  set it := applyCounterResets (counterSamples chks) with hit
  have hosorted : it.1.Pairwise (fun p q => p.1 < q.1) := List.pairwise_map.mp hR.sorted
  have hot := hR.nonneg hw hsorted ht0
  obtain ⟨y', hy', hy'1⟩ := hR.getLast hw' hsorted hne
  have hone : it.1 ≠ [] := by
    rintro h
    simp [h] at hy'
  have hL : (it.1.getLast hone).1 = (segs.flatten.getLast hne).1 := by
    rw [List.getLast?_eq_some_getLast hone, Option.some.injEq] at hy'
    rw [hy', hy'1]
  -- the iterator ends on the last raw value
  have hlastV : it.2.lastV = (segs.flatten.getLast hne).2 := by
    obtain ⟨v, hv⟩ := run_some ((segs.flatten.head hne).2, (segs.flatten.head hne).2)
      ((segs.flatten.tail).map Prod.snd)
    have hrun : run none (segs.flatten.map Prod.snd) = some v := by
      rw [← List.cons_head_tail hne, List.map_cons, run_cons, push_none, hv]
    have hfst := run_fst none (segs.flatten.map Prod.snd) (segs.flatten.getLast hne).2
      (by rw [List.getLast?_map, List.getLast?_eq_some_getLast hne]; rfl)
    rw [hrun] at hstate hfst
    obtain ⟨-, hv'⟩ := counterState_eq_some.mp hstate
    rw [Option.map_some, Option.some.injEq] at hfst
    rw [← hfst, ← hv']
  have hcons : it.1 = segs.flatten.head hne :: it.1.tail := by
    have hhead := hR.head hw' hsorted hne
    cases h : it.1 with
    | nil => exact absurd h hone
    | cons x xs =>
      rw [h, List.head?_cons, Option.some.injEq] at hhead
      rw [hhead, List.tail_cons]
  have hbuf : expandXorChunkIterator it.1 = segs.flatten.head hne :: it.1.tail := by
    rw [expandXorChunkIterator, expandXorChunkIteratorGo_of_sorted it.1 0 hosorted hot, ← hcons]
  have hframed := hR.framed_rewindow hr hr₂ hdvd hw hsorted ht0 hnn hne
  have hspec := batchWindows_spec hr₂ hone hosorted hot
  obtain ⟨wL, hwL, hwL1⟩ : ∃ w ∈ batchWindows it.1 r₂ {}, w.1 = (it.1.getLast hone).1 := by
    have := hspec.last
    obtain ⟨w, hw, hwe⟩ := List.mem_map.mp (List.mem_of_getLast? this)
    exact ⟨w, hw, hwe⟩
  have hlastL := ht _ (List.getLast_mem hne)
  have htake : segs.flatten.take 1 = [segs.flatten.head hne] := by
    obtain ⟨x, xs, h⟩ := List.exists_cons_of_ne_nil hne
    simp [h]
  -- the chunk is written by one fold over the windows, from any state holding the first sample
  have key : ∀ s₀ : Int × Int × AggrChunk, s₀.2.2.get .counter = some [segs.flatten.head hne] →
      let res := downsampleBatch it.1 r₂ {}
        (fun t agg (s : Int × Int × AggrChunk) =>
          (min t s.1, max t s.2.1, s.2.2.append .counter (t, agg.counter))) s₀
      (res.2.2.2.append .counter (res.1, it.2.lastV)).get .counter =
        some (frame segs.flatten (counterWindows it.1 r₂)) ∧
      res.2.1 ≠ maxInt64 ∧ res.2.2.1 ≠ minInt64 := by
    intro s₀ hs₀
    dsimp only
    obtain ⟨h1, h2⟩ := downsampleBatch_counter it.1 r₂ s₀
    have hfst := downsampleBatch_fst hr₂ hone hosorted hot
      (fun t agg (s : Int × Int × AggrChunk) =>
        (min t s.1, max t s.2.1, s.2.2.append .counter (t, agg.counter))) s₀
    obtain ⟨hmin, hmax⟩ := h2 wL hwL
    refine ⟨?_, ?_, ?_⟩
    · rw [AggrChunk.get_append_self, h1, hs₀, hfst, hL, hlastV]
      simp [frame, htake, List.getLast?_eq_some_getLast hne]
    · rw [hwL1, hL] at hmin
      omega
    · rw [hwL1, hL] at hmax
      unfold minInt64
      omega
  refine ⟨counterWindows it.1 r₂, hframed, ?_⟩
  have hbuf' : expandXorChunkIterator
      (applyCounterResets (chks.filterMap fun c => (c.get .counter).map XorChunk.samples)).1 =
      segs.flatten.head hne :: it.1.tail := hbuf
  unfold downsampleFloatAggrBatch
  simp only [hbuf']
  rw [← hcons]
  exact key _ (by simp)

/-! ## The loops -/

/-- The counter sub-chunks of `chks` frame, at resolution `r`, consecutive segments that
make up the raw samples `pts`: what every level of downsampling keeps. -/
def FramedCut (r : Int) (pts : List (Int × ℚ)) (chks : List AggrChunk) : Prop :=
  ∃ segs wss, List.Forall₂ (Framed r) segs wss ∧ segs.flatten = pts ∧
    chks.map (·.get .counter) = (List.zipWith frame segs wss).map some

/-- `downsampleRawLoop` with `downsampleFloatBatch` frames the numeric samples. -/
theorem downsampleRawLoop_framedCut {r : Int} (hr : 0 < r) {data : List Sample}
    (hinc : (data.map Sample.t).Pairwise (· < ·)) (ht : ∀ s ∈ data, 0 ≤ s.t) (numChunks : Nat) :
    FramedCut r (numeric data) ((downsampleRawLoop data r numChunks downsampleFloatBatch).map (·.chunk)) := by
  obtain ⟨segs, hloop, hflat, hne⟩ :=
    downsampleRawLoopGo_cut r (data.length / numChunks) downsampleFloatBatch data
  have hsorted : segs.flatten.Pairwise (fun p q => p.1 < q.1) := hflat ▸ numeric_sorted hinc
  have hseg : ∀ s ∈ segs, s.Pairwise (fun p q => p.1 < q.1) ∧ ∀ q ∈ s, 0 ≤ q.1 := by
    intro s hs
    refine ⟨hsorted.sublist (List.sublist_flatten_of_mem hs), fun q hq => ?_⟩
    obtain ⟨x, hx, hxt, -⟩ := mem_numeric.mp (hflat ▸ List.mem_flatten_of_mem hs hq)
    exact hxt ▸ ht x hx
  refine ⟨segs, segs.map (counterWindows · r), ?_, hflat, ?_⟩
  · rw [List.forall₂_map_right_iff]
    exact List.forall₂_same.mpr fun s hs =>
      framed_counterWindows hr (hne s hs) (hseg s hs).1 (hseg s hs).2
  · rw [downsampleRawLoop, hloop, List.zipWith_map_right, List.zipWith_self, List.map_map,
      List.map_map, List.map_map]
    exact List.map_congr_left fun s hs =>
      downsampleFloatBatch_counter hr (hne s hs) (hseg s hs).1 (hseg s hs).2

/-- A batch of at least one chunk off the front of a framed cut: the frames of the
first segments, and a framed cut of the rest. -/
theorem FramedCut.take_drop {r : Int} {pts : List (Int × ℚ)} {c : AggrChunk} {cs : List AggrChunk}
    (h : FramedCut r pts (c :: cs)) {bs : Nat} (hbs : 0 < bs) :
    ∃ segs wss pts₂, List.Forall₂ (Framed r) segs wss ∧
      ((c :: cs).take bs).map (·.get .counter) = (List.zipWith frame segs wss).map some ∧
      segs.flatten ≠ [] ∧ pts = segs.flatten ++ pts₂ ∧ FramedCut r pts₂ ((c :: cs).drop bs) := by
  obtain ⟨segs, wss, hw, hflat, hc⟩ := h
  have hlen := hw.length_eq
  obtain ⟨s, segs', rfl⟩ : ∃ s segs', segs = s :: segs' := by
    cases segs with
    | nil => cases wss <;> simp at hc
    | cons s segs' => exact ⟨s, segs', rfl⟩
  have hsne : s ≠ [] := by
    cases hw with
    | cons h _ => exact h.nonempty
  refine ⟨(s :: segs').take bs, wss.take bs, ((s :: segs').drop bs).flatten,
    List.forall₂_take bs hw, ?_, ?_, ?_, ⟨_, _, List.forall₂_drop bs hw, rfl, ?_⟩⟩
  · rw [List.map_take, hc, ← List.map_take, List.take_zipWith]
  · obtain ⟨k, rfl⟩ := Nat.exists_eq_add_of_lt hbs
    rw [Nat.zero_add, List.take_succ_cons, List.flatten_cons]
    exact fun h => hsne (List.append_eq_nil_iff.mp h).1
  · rw [← hflat, ← List.flatten_append, List.take_append_drop]
  · rw [List.map_drop, hc, ← List.map_drop, List.drop_zipWith]

/-- `downsampleAggrLoop` with `downsampleFloatAggrBatch` over a framed cut at `r` returns
chunks framing the same samples at any coarser resolution `r₂` that `r` divides. -/
theorem downsampleAggrLoopGo_framedCut {r r₂ : Int} (hr : 0 < r) (hr₂ : 0 < r₂) (hdvd : r ∣ r₂)
    {bs : Nat} (hbs : 0 < bs) (chks : List AggrChunk) :
    ∀ pts, FramedCut r pts chks → pts.Pairwise (fun p q => p.1 < q.1) →
      (∀ p ∈ pts, 0 ≤ p.1 ∧ p.1 + r₂ ≤ maxInt64) → (∀ p ∈ pts, 0 ≤ p.2) →
      ∃ ms, downsampleAggrLoopGo r₂ bs downsampleFloatAggrBatch chks = some (.ok ms) ∧
        FramedCut r₂ pts (ms.map (·.chunk)) := by
  fun_induction downsampleAggrLoopGo r₂ bs downsampleFloatAggrBatch chks with
  | case1 =>
    intro pts h _ _ _
    obtain ⟨segs, wss, hw, hflat, hc⟩ := h
    have hlen := hw.length_eq
    obtain rfl : segs = [] := by
      cases segs with
      | nil => rfl
      | cons s segs => cases wss <;> simp at hc hlen
    cases wss with
    | nil => exact ⟨[], rfl, [], [], List.Forall₂.nil, hflat, rfl⟩
    | cons => simp at hlen
  | case2 c cs chk mint maxt hrange =>
    intro pts h hsorted ht hnn
    obtain ⟨segs, wss, pts₂, hw, hc, hne, rfl, -⟩ := h.take_drop hbs
    obtain ⟨-, -, -, hmin, hmax⟩ := downsampleFloatAggrBatch_framed hr hr₂ hdvd hw hc
      (List.pairwise_append.mp hsorted).1 (fun p hp => ht p (List.mem_append_left _ hp))
      (fun p hp => hnn p (List.mem_append_left _ hp)) hne
    exact absurd hrange (not_or.mpr ⟨hmin, hmax⟩)
  | case3 c cs chk mint maxt _ hbs0 =>
    exact absurd hbs0 (Nat.pos_iff_ne_zero.mp hbs)
  | case4 c cs chk mint maxt hrange _ ih =>
    intro pts h hsorted ht hnn
    obtain ⟨segs, wss, pts₂, hw, hc, hne, rfl, hrest⟩ := h.take_drop hbs
    obtain ⟨ws, hframed, hcounter, -⟩ := downsampleFloatAggrBatch_framed hr hr₂ hdvd hw hc
      (List.pairwise_append.mp hsorted).1 (fun p hp => ht p (List.mem_append_left _ hp))
      (fun p hp => hnn p (List.mem_append_left _ hp)) hne
    obtain ⟨ms, hms, segs₂, wss₂, hw₂, hflat₂, hc₂⟩ := ih pts₂ hrest (List.pairwise_append.mp hsorted).2.1
      (fun p hp => ht p (List.mem_append_right _ hp)) (fun p hp => hnn p (List.mem_append_right _ hp))
    refine ⟨chk :: ms, by rw [hms]; rfl, segs.flatten :: segs₂, ws :: wss₂,
      List.Forall₂.cons hframed hw₂, by rw [List.flatten_cons, hflat₂], ?_⟩
    simp only [List.map_cons, List.zipWith_cons_cons, hc₂, List.cons.injEq, and_true]
    exact hcounter

/-- Reading the counter sub-chunks of a framed cut of the numeric samples refines
reading the raw series. -/
theorem FramedCut.refines {r : Int} {data : List Sample} {chks : List AggrChunk}
    (h : FramedCut r (numeric data) chks) (hinc : (data.map Sample.t).Pairwise (· < ·))
    (hnn : ∀ s ∈ data, ∀ v ∈ s.v, 0 ≤ v) :
    CounterRefines (applyCounterResets [data]).1 (applyCounterResets (counterSamples chks)).1 := by
  obtain ⟨segs, wss, hw, hflat, hc⟩ := h
  rw [counterSamples_eq hc]
  exact counterRefines_frames hinc hnn (Framed.forall₂_windowTotals hw) hflat

/-! ## Two levels of counter downsampling -/

end Thanos.Downsample