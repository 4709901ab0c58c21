import Thanos.Dedup.Merge

/-! # The nested iterator of `dedupSeries.Iterator`

`dedupSeries.Iterator` merges in one replica after the other: the iterator
built so far is replica `a` of the next `newDedupSeriesIterator`. An inner
iterator, once the constructor's `Next` has returned a sample, `Shows` the
iterator around it a replica made of the sample it stands on and those it will
emit; its `Seek`, a loop of `Next`, keeps showing it, and `AtT` and `At` read
it. This is why the samples of the nested iterator are `dedupSeriesSamples`,
the merge folded over the replicas' samples. -/

namespace Thanos.Dedup

open ReplicaIterator

namespace DedupSeriesIterator

section Shows

variable {a₀ b₀ : List (Int × ℚ)} (hsa : (a₀.map Prod.fst).Pairwise (· < ·))
  (hsb : (b₀.map Prod.fst).Pairwise (· < ·))

include hsa hsb in
/-- What the iterator emits after a `Next` that returned a sample. -/
theorem expandSeries_of_valFloat {it it' : DedupSeriesIterator} (hv : Valid a₀ b₀ it)
    (h : it.next false = (it', .valFloat)) :
    expandSeries false it = it'.at' :: expandSeries false it' := by
  have hlt := pending_next_lt hv h
  have hle : it'.fuel ≤ it.fuel := by
    obtain ⟨ha, hb, -⟩ := next_valFloat hv h
    simp only [fuel, ha, hb, seek_samples]
    have := (List.dropWhile_suffix (fun p : Int × ℚ => decide (p.1 < it.lastT + 1 + it.penA)) (l := it.a.samples)).length_le
    have := (List.dropWhile_suffix (fun p : Int × ℚ => decide (p.1 < it.lastT + 1 + it.penB)) (l := it.b.samples)).length_le
    omega
  have hp := pending_lt_fuel it
  have hp' := pending_lt_fuel it'
  unfold expandSeries
  rw [show it.fuel = (it.fuel - 1) + 1 by omega, expandGo_succ, h]
  simp only [reduceCtorEq, if_false, List.cons.injEq, true_and]
  exact congrArg Prod.fst
    (expandGo_eq_of_lt hsa hsb (valid_next hsa hsb hv h) (by omega) hp')

theorem expandSeries_of_valNone {it : DedupSeriesIterator} (h : (it.next false).2 = .valNone) :
    expandSeries false it = [] := by
  simp [expandSeries, fuel, expandGo_succ, h]

/-- The replica an iterator that stands on a sample shows the iterator reading
it: that sample, then those it will emit. -/
structure Shows (a₀ b₀ : List (Int × ℚ)) (it : DedupSeriesIterator) (r : ReplicaIterator) :
    Prop where
  valid : Valid a₀ b₀ it
  emitted : it.lastT ≠ minInt64
  samples : r.samples = it.at' :: expandSeries false it
  errAdjust : r.errAdjust = 0

variable {it : DedupSeriesIterator} {r : ReplicaIterator}

theorem Shows.at'_eq (h : Shows a₀ b₀ it r) : it.at' = r.at' := by
  rw [ReplicaIterator.at'_eq h.samples, h.errAdjust, add_zero]

/-- The replica `AtT` reads is the one `At` reads, standing at `lastT`. -/
theorem atT_of_valid (hv : Valid a₀ b₀ it) (hne : it.lastT ≠ minInt64) : it.atT = it.lastT := by
  obtain ⟨huse, hcur⟩ := hv.current hne
  unfold lastIter at hcur
  unfold atT
  rw [huse]
  split at hcur <;> obtain ⟨p, ps, hps, hp⟩ := exists_cons_of_head?_map_fst hcur <;>
    simp [*, ReplicaIterator.atT_eq hps]

theorem Shows.atT_eq (h : Shows a₀ b₀ it r) : it.atT = r.atT := by
  rw [ReplicaIterator.atT_eq h.samples, (at'_of_valid h.valid h.emitted).2,
    atT_of_valid h.valid h.emitted]

include hsa hsb in
/-- The constructor's `Next` leaves an inner iterator showing every sample it
emits. -/
theorem shows_next_new (hra : ∀ p ∈ a₀, -2 ^ 60 ≤ p.1 ∧ p.1 ≤ 2 ^ 60)
    (hrb : ∀ p ∈ b₀, -2 ^ 60 ≤ p.1 ∧ p.1 ≤ 2 ^ 60) :
    ((newDedupSeriesIterator a₀ b₀).next false).2 =
      (⟨expandSeries false (newDedupSeriesIterator a₀ b₀), 0⟩ : ReplicaIterator).valueType ∧
    (((newDedupSeriesIterator a₀ b₀).next false).2 = .valFloat →
      Shows a₀ b₀ ((newDedupSeriesIterator a₀ b₀).next false).1
        ⟨expandSeries false (newDedupSeriesIterator a₀ b₀), 0⟩) := by
  rcases hnx : (newDedupSeriesIterator a₀ b₀).next false with ⟨it', _ | _⟩
  · simp [expandSeries_of_valNone (by rw [hnx]), ReplicaIterator.valueType]
  · have hv := valid_new hra hrb
    have hv' := valid_next hsa hsb hv hnx
    obtain ⟨-, -, -, -, -, -, hlt, -⟩ := next_valFloat hv hnx
    rw [expandSeries_of_valFloat hsa hsb hv hnx]
    refine ⟨rfl, fun _ => ⟨hv', ?_, rfl, rfl⟩⟩
    have := hv.lastT
    dsimp only at hlt ⊢
    omega

include hsa hsb in
/-- `Seek`'s loop of `Next`, with more rounds than samples to emit, seeks the
replica the iterator shows. -/
theorem seekGo_shows (t : Int) {n : Nat} (h : Shows a₀ b₀ it r) (hn : it.pending < n) :
    (seekGo false t n it).2 = (r.seek t).2 ∧
    ((r.seek t).2 = .valFloat → Shows a₀ b₀ (seekGo false t n it).1 (r.seek t).1) := by
  induction n generalizing it r with
  | zero => omega
  | succ n ih =>
    have hatT := h.atT_eq
    rw [ReplicaIterator.atT_eq h.samples] at hatT
    by_cases ht : t ≤ it.atT
    · -- the replica read stands at `t` or later, and `Seek` on it does not move it
      obtain ⟨huse, hcur⟩ := h.valid.current h.emitted
      unfold lastIter at hcur
      simp only [seekGo, if_pos ht, seek_of_le h.samples (hatT ▸ ht)]
      unfold atT
      split_ifs with hA <;>
        obtain ⟨p, ps, hps, -⟩ := exists_cons_of_head?_map_fst (by simpa [← huse, hA] using hcur) <;>
        rw [seek_of_le hps (by rw [ReplicaIterator.atT_eq hps])] <;>
        exact ⟨rfl, fun _ => h⟩
    · -- the sample stood on is before `t`: `Seek` calls `Next` once more
      have hskip := seek_of_lt (t := t) h.samples (by omega)
      simp only [seekGo, if_neg ht]
      rcases hnx : it.next false with ⟨it', _ | _⟩
      · rw [hskip, expandSeries_of_valNone (by rw [hnx])]
        simp [ReplicaIterator.seek, ReplicaIterator.valueType]
      · have hv' := valid_next hsa hsb h.valid hnx
        obtain ⟨-, -, -, -, -, -, hlt, -⟩ := next_valFloat h.valid hnx
        have hpend := pending_next_lt h.valid hnx
        have h' : Shows a₀ b₀ it' { r with samples := expandSeries false it } :=
          ⟨hv', by have := h.valid.lastT; omega,
            expandSeries_of_valFloat hsa hsb h.valid hnx, h.errAdjust⟩
        simp only [reduceCtorEq, if_false]
        rw [hskip]
        exact ih h' (by omega)

include hsa hsb in
/-- `Seek` on an inner iterator is `Seek` on the replica it shows, and it goes on
showing what that replica stands on after it. -/
theorem Shows.seek (h : Shows a₀ b₀ it r) (t : Int) :
    (it.seek false t).2 = (r.seek t).2 ∧
    ((r.seek t).2 = .valFloat → Shows a₀ b₀ (it.seek false t).1 (r.seek t).1) :=
  seekGo_shows hsa hsb t h (by have := pending_lt_fuel it; unfold fuel at this; omega)

end Shows

end DedupSeriesIterator

open DedupSeriesIterator

section Chain

/-- A list made of the merge of two replicas has the least of their first
timestamps. -/
theorem min?_filterMap_merge {f : List (Int × ℚ) → Option Int} {x y z : List (Int × ℚ)}
    (l : List (List (Int × ℚ))) (hz : f z = Option.merge min (f x) (f y)) :
    ((z :: l).filterMap f).min? = ((x :: y :: l).filterMap f).min? := by
  cases hx : f x <;> cases hy : f y <;> cases hl : (l.filterMap f).min? <;>
    simp [hx, hy, hz, hl, Option.merge, min_assoc]

theorem dedupSeriesSamples_cons (first o : List (Int × ℚ)) (os : List (List (Int × ℚ))) :
    dedupSeriesSamples first (o :: os) =
      dedupSeriesSamples (expandSeries false (newDedupSeriesIterator first o)) os := rfl

variable {first : List (Int × ℚ)} {replicas : List (List (Int × ℚ))}

/-- The hypotheses on the replicas, for the merge of the first two and the rest. -/
theorem forall_merge_cons {P : List (Int × ℚ) → Prop} {o : List (Int × ℚ)}
    {os : List (List (Int × ℚ))} (h : ∀ r ∈ first :: o :: os, P r)
    (hmerge : P first → P o → P (expandSeries false (newDedupSeriesIterator first o))) :
    ∀ r ∈ expandSeries false (newDedupSeriesIterator first o) :: os, P r := by
  intro r hr
  rcases List.mem_cons.mp hr with rfl | hr
  · exact hmerge (h _ (by simp)) (h _ (by simp))
  · exact h r (by simp [hr])

/-- A sample of the merge of the first two replicas is a sample of one of them. -/
theorem mem_merge_cons {o : List (Int × ℚ)} {os : List (List (Int × ℚ))}
    (hsorted : ∀ r ∈ first :: o :: os, (r.map Prod.fst).Pairwise (· < ·))
    (hrange : ∀ r ∈ first :: o :: os, ∀ p ∈ r, -2 ^ 60 ≤ p.1 ∧ p.1 ≤ 2 ^ 60) {p : Int × ℚ}
    (hp : p ∈ expandSeries false (newDedupSeriesIterator first o)) : ∃ r ∈ first :: o :: os, p ∈ r :=
  (mem_expandSeries_new (hsorted first (by simp)) (hsorted o (by simp))
    (hrange first (by simp)) (hrange o (by simp)) hp).elim
    (fun h => ⟨first, by simp, h⟩) fun h => ⟨o, by simp, h⟩

/-- Sorted replicas in range stay so once the first two are merged. -/
theorem sorted_range_merge_cons {o : List (Int × ℚ)} {os : List (List (Int × ℚ))}
    (hsorted : ∀ r ∈ first :: o :: os, (r.map Prod.fst).Pairwise (· < ·))
    (hrange : ∀ r ∈ first :: o :: os, ∀ p ∈ r, -2 ^ 60 ≤ p.1 ∧ p.1 ≤ 2 ^ 60) :
    (∀ r ∈ expandSeries false (newDedupSeriesIterator first o) :: os,
        (r.map Prod.fst).Pairwise (· < ·)) ∧
      ∀ r ∈ expandSeries false (newDedupSeriesIterator first o) :: os,
        ∀ p ∈ r, -2 ^ 60 ≤ p.1 ∧ p.1 ≤ 2 ^ 60 := by
  refine ⟨forall_merge_cons hsorted fun ha hb =>
    expandSeries_new_sorted ha hb (hrange first (by simp)) (hrange o (by simp)),
    forall_merge_cons hrange fun _ _ p hp => ?_⟩
  obtain ⟨r, hr, hpr⟩ := mem_merge_cons hsorted hrange hp
  exact hrange r hr p hpr

/-- The nested iterator emits strictly increasing timestamps. -/
theorem dedupSeriesSamples_sorted
    (hsorted : ∀ r ∈ first :: replicas, (r.map Prod.fst).Pairwise (· < ·))
    (hrange : ∀ r ∈ first :: replicas, ∀ p ∈ r, -2 ^ 60 ≤ p.1 ∧ p.1 ≤ 2 ^ 60) :
    ((dedupSeriesSamples first replicas).map Prod.fst).Pairwise (· < ·) := by
  induction replicas generalizing first with
  | nil => exact hsorted first (by simp)
  | cons o os ih =>
    obtain ⟨hsorted', hrange'⟩ := sorted_range_merge_cons hsorted hrange
    exact ih hsorted' hrange'

/-- Every sample the nested iterator emits is a sample of one of the replicas. -/
theorem mem_dedupSeriesSamples
    (hsorted : ∀ r ∈ first :: replicas, (r.map Prod.fst).Pairwise (· < ·))
    (hrange : ∀ r ∈ first :: replicas, ∀ p ∈ r, -2 ^ 60 ≤ p.1 ∧ p.1 ≤ 2 ^ 60) :
    ∀ p ∈ dedupSeriesSamples first replicas, ∃ r ∈ first :: replicas, p ∈ r := by
  induction replicas generalizing first with
  | nil => exact fun p hp => ⟨first, by simp, hp⟩
  | cons o os ih =>
    obtain ⟨hsorted', hrange'⟩ := sorted_range_merge_cons hsorted hrange
    intro p hp
    obtain ⟨r, hr, hpr⟩ := ih hsorted' hrange' p hp
    rcases List.mem_cons.mp hr with rfl | hr
    · exact mem_merge_cons hsorted hrange hpr
    · exact ⟨r, by simp [hr], hpr⟩

/-- With no sample at `minInt64`, the first sample the nested iterator emits is at
the least first timestamp of the replicas. -/
theorem head?_dedupSeriesSamples
    (hsorted : ∀ r ∈ first :: replicas, (r.map Prod.fst).Pairwise (· < ·))
    (hrange : ∀ r ∈ first :: replicas, ∀ p ∈ r, -2 ^ 60 ≤ p.1 ∧ p.1 ≤ 2 ^ 60)
    (hmin : ∀ r ∈ first :: replicas, ∀ p ∈ r, minInt64 < p.1) :
    (dedupSeriesSamples first replicas).head?.map Prod.fst =
      ((first :: replicas).filterMap fun r => r.head?.map Prod.fst).min? := by
  induction replicas generalizing first with
  | nil =>
    cases first with
    | nil => rfl
    | cons p ps => simp [dedupSeriesSamples]
  | cons o os ih =>
    obtain ⟨hsorted', hrange'⟩ := sorted_range_merge_cons hsorted hrange
    rw [dedupSeriesSamples_cons,
      ih hsorted' hrange' (forall_merge_cons hmin fun _ _ p hp => by
        obtain ⟨r, hr, hpr⟩ := mem_merge_cons hsorted hrange hp
        exact hmin r hr p hpr)]
    exact min?_filterMap_merge os
      (head?_expandSeries_new (hmin first (by simp)) (hmin o (by simp)))

/-- Every nested iterator, once it has ended, has no sample of either input after
its `lastT` plus that input's penalty: the first replica is input `a` of the
innermost one, every further replica input `b` of its own. -/
theorem done_dedupSeriesIterators
    (hsorted : ∀ r ∈ first :: replicas, (r.map Prod.fst).Pairwise (· < ·))
    (hrange : ∀ r ∈ first :: replicas, ∀ p ∈ r, -2 ^ 60 ≤ p.1 ∧ p.1 ≤ 2 ^ 60) :
    (∀ it ∈ (dedupSeriesIterators first replicas).head?, ∀ p ∈ first,
      p.1 ≤ (exhausted false it).lastT + (exhausted false it).penA) ∧
    List.Forall₂ (fun it r => ∀ p ∈ r, p.1 ≤ (exhausted false it).lastT + (exhausted false it).penB)
      (dedupSeriesIterators first replicas) replicas := by
  induction replicas generalizing first with
  | nil => simp [dedupSeriesIterators]
  | cons o os ih =>
    obtain ⟨hsorted', hrange'⟩ := sorted_range_merge_cons hsorted hrange
    have hdone := done_exhausted_new (hsorted first (by simp)) (hsorted o (by simp))
      (hrange first (by simp)) (hrange o (by simp))
    refine ⟨by simpa [dedupSeriesIterators] using hdone.1, ?_⟩
    exact List.Forall₂.cons hdone.2 (ih hsorted' hrange').2

/-- The iterator `dedupSeries.Iterator` builds over time-sorted replicas with timestamps
in `[-2^60, 2^60]`, for a non-counter function: it emits strictly increasing timestamps,
only samples of the replicas, first the earliest first sample, and once it has ended no
replica has a sample after the `lastT` plus penalty of the iterator that merged it in.
In that range no int64 sum of `Next` (`lastT + 1 + pen`, `2 * (t - lastT)`) wraps,
and no sample sits at the `minInt64` sentinel. -/
theorem dedupSeriesSamples_wellFormed (first : List (Int × ℚ))
    (replicas : List (List (Int × ℚ)))
    (hsorted : ∀ r ∈ first :: replicas, (r.map Prod.fst).Pairwise (· < ·))
    (hrange : ∀ r ∈ first :: replicas, ∀ p ∈ r, -2 ^ 60 ≤ p.1 ∧ p.1 ≤ 2 ^ 60) :
    ((dedupSeriesSamples first replicas).map Prod.fst).Pairwise (· < ·) ∧
    (∀ p ∈ dedupSeriesSamples first replicas, ∃ r ∈ first :: replicas, p ∈ r) ∧
    (dedupSeriesSamples first replicas).head?.map Prod.fst =
      ((first :: replicas).filterMap fun r => r.head?.map Prod.fst).min? ∧
    (∀ it ∈ (dedupSeriesIterators first replicas).head?, ∀ p ∈ first,
      p.1 ≤ (exhausted false it).lastT + (exhausted false it).penA) ∧
    List.Forall₂ (fun it r => ∀ p ∈ r, p.1 ≤ (exhausted false it).lastT + (exhausted false it).penB)
      (dedupSeriesIterators first replicas) replicas := by
  have hmin : ∀ r ∈ first :: replicas, ∀ p ∈ r, minInt64 < p.1 := fun r hr p hp => by
    have := (hrange r hr p hp).1
    unfold minInt64
    omega
  exact ⟨dedupSeriesSamples_sorted hsorted hrange, mem_dedupSeriesSamples hsorted hrange,
    head?_dedupSeriesSamples hsorted hrange hmin, done_dedupSeriesIterators hsorted hrange⟩

theorem dedupSeriesSamples_three_replicas :
    (∀ r ∈ [[((0 : Int), (1 : ℚ))], [(5, 2)], [(20, 3)]], ∀ p ∈ r, -2 ^ 60 ≤ p.1 ∧ p.1 ≤ 2 ^ 60) ∧
    ((dedupSeriesSamples [(0, 1)] [[(5, 2)], [(20, 3)]]).map Prod.fst).Pairwise (· < ·) ∧
    (∀ p ∈ dedupSeriesSamples [(0, 1)] [[(5, 2)], [(20, 3)]],
      ∃ r ∈ [[(0, 1)], [(5, 2)], [(20, 3)]], p ∈ r) ∧
    (dedupSeriesSamples [(0, 1)] [[(5, 2)], [(20, 3)]]).head?.map Prod.fst =
      ([[(0, 1)], [(5, 2)], [(20, 3)]].filterMap fun r => r.head?.map Prod.fst).min? ∧
    (∀ it ∈ (dedupSeriesIterators [(0, 1)] [[(5, 2)], [(20, 3)]]).head?, ∀ p ∈ [((0 : Int), (1 : ℚ))],
      p.1 ≤ (exhausted false it).lastT + (exhausted false it).penA) ∧
    List.Forall₂ (fun it (r : List (Int × ℚ)) =>
        ∀ p ∈ r, p.1 ≤ (exhausted false it).lastT + (exhausted false it).penB)
      (dedupSeriesIterators [(0, 1)] [[(5, 2)], [(20, 3)]]) [[(5, 2)], [(20, 3)]] :=
  ⟨by decide, dedupSeriesSamples_wellFormed [(0, 1)] [[(5, 2)], [(20, 3)]] (by decide) (by decide)⟩

/-- A sample at `math.MinInt64` is skipped: the first `Seek` is to `lastT + 1`,
with `lastT` at that sentinel, so the first emitted timestamp is not the least. -/
theorem dedupSeriesSamples_minInt64 :
    (dedupSeriesSamples [(minInt64, 1)] [[(0, 2)]]).head?.map Prod.fst = some 0 ∧
    ([[(minInt64, 1)], [(0, 2)]].filterMap fun r => r.head?.map Prod.fst).min? = some minInt64 := by
  decide +kernel

end Chain

/-! ## Counters

With a counter function the replicas are `counterErrAdjustSeriesIterator`s, and
when `Next` switches replicas it lifts the new one to the value `lastIter` showed
before the step. Before the first sample, `lastIter` is replica `a` standing on
its first sample, not a sample that was emitted. -/

/-- Two replicas of one counter `f` with `f 10 = 3` and `f 20 = 5`: the second
starts earlier, so the first `Next` switches to it and lifts it to `a`'s `5`, and
the iterator emits `5` and `7` where the counter was `3` and `5`. -/
theorem dedupSeries_counter_lifted_early :
    expandSeries true (newDedupSeriesIterator [(20, 5)] [(10, 3), (20, 5)]) = [(10, 5), (20, 7)] := by
  decide +kernel

end Thanos.Dedup
