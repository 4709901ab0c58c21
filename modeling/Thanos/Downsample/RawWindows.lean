import Thanos.Downsample.CounterFrames
import Mathlib.Data.List.Dedup
import Mathlib.Data.List.MinMax
import Mathlib.Data.List.TakeWhile
import Mathlib.Algebra.BigOperators.Group.List.Lemmas
import Mathlib.Algebra.BigOperators.Ring.Finset

/-! # Raw downsampling is exact per window

For a batch whose timestamps do not decrease, `downsampleBatch` closes one
window per resolution window that holds a sample, and the aggregator it
closes it with holds the count, sum, minimum and maximum of exactly that
window's samples. `downsampleRawLoop` cuts a series into batches that never
split a window, so every window of the series is aggregated once, in one
chunk, and the chunks' time ranges follow each other without overlap. -/

namespace Thanos.Downsample

/-! ## The aggregator over one window -/

section Aggregator

theorem FloatAggregator.foldl_add_count (w : List (Int × ℚ)) (a : FloatAggregator) :
    (w.foldl FloatAggregator.add a).count = a.count + w.length := by
  induction w generalizing a with
  | nil => rfl
  | cons s w ih =>
    rw [List.foldl_cons, ih, FloatAggregator.add_count, List.length_cons]
    omega

theorem FloatAggregator.foldl_add_total (w : List (Int × ℚ)) (a : FloatAggregator) :
    (w.foldl FloatAggregator.add a).total = a.total + w.length := by
  induction w generalizing a with
  | nil => rfl
  | cons s w ih =>
    rw [List.foldl_cons, ih, FloatAggregator.add_total, List.length_cons]
    omega

theorem FloatAggregator.foldl_add_sum (w : List (Int × ℚ)) (a : FloatAggregator) :
    (w.foldl FloatAggregator.add a).sum = a.sum + (w.map Prod.snd).sum := by
  induction w generalizing a with
  | nil => simp
  | cons s w ih =>
    rw [List.foldl_cons, ih, FloatAggregator.add_sum, List.map_cons, List.sum_cons, add_assoc]

theorem FloatAggregator.foldl_add_min (w : List (Int × ℚ)) (a : FloatAggregator) :
    ((w.foldl FloatAggregator.add a).min : WithTop ℚ) = Min.min (a.min : WithTop ℚ) (w.map Prod.snd).minimum := by
  induction w generalizing a with
  | nil => simp
  | cons s w ih =>
    rw [List.foldl_cons, ih, FloatAggregator.add_min, List.map_cons, List.minimum_cons, WithTop.coe_min,
      min_assoc, min_left_comm]

theorem FloatAggregator.foldl_add_max (w : List (Int × ℚ)) (a : FloatAggregator) :
    ((w.foldl FloatAggregator.add a).max : WithBot ℚ) = Max.max (a.max : WithBot ℚ) (w.map Prod.snd).maximum := by
  induction w generalizing a with
  | nil => simp
  | cons s w ih =>
    rw [List.foldl_cons, ih, FloatAggregator.add_max, List.map_cons, List.maximum_cons, WithBot.coe_max,
      max_assoc, max_left_comm]

/-- A window's values are finite floats: `reset`'s sentinels `±math.MaxFloat64` never win. -/
def Finite (w : List (Int × ℚ)) : Prop := ∀ q ∈ w, -maxFloat64 ≤ q.2 ∧ q.2 ≤ maxFloat64

variable {w : List (Int × ℚ)} (hw : w ≠ []) (hfin : Finite w) (a : FloatAggregator)
include hw hfin

theorem FloatAggregator.window_min :
    ((w.foldl FloatAggregator.add a.reset).min : WithTop ℚ) = (w.map Prod.snd).minimum := by
  obtain ⟨q, hq⟩ := List.exists_mem_of_ne_nil w hw
  have hle : (w.map Prod.snd).minimum ≤ (maxFloat64 : WithTop ℚ) :=
    le_trans (List.minimum_le_of_mem' (List.mem_map_of_mem hq)) (WithTop.coe_le_coe.mpr (hfin q hq).2)
  rw [FloatAggregator.foldl_add_min, FloatAggregator.reset_min, min_eq_right hle]

theorem FloatAggregator.window_max :
    ((w.foldl FloatAggregator.add a.reset).max : WithBot ℚ) = (w.map Prod.snd).maximum := by
  obtain ⟨q, hq⟩ := List.exists_mem_of_ne_nil w hw
  have hle : ((-maxFloat64 : ℚ) : WithBot ℚ) ≤ (w.map Prod.snd).maximum :=
    le_trans (WithBot.coe_le_coe.mpr (hfin q hq).1) (List.le_maximum_of_mem' (List.mem_map_of_mem hq))
  rw [FloatAggregator.foldl_add_max, FloatAggregator.reset_max, max_eq_right hle]

end Aggregator

/-! ## The loop, one window at a time -/

section Loop

variable {β : Type} (resolution lastT : Int) (add : Int → FloatAggregator → β → β)

/-- Samples at or before the open window's end are added to it. -/
theorem downsampleBatchLoop_append_of_le (w rest : List (Int × ℚ)) (nextT : Int)
    (aggr : FloatAggregator) (b : β) (hw : ∀ q ∈ w, q.1 ≤ nextT) :
    downsampleBatchLoop resolution lastT add (w ++ rest) nextT aggr b =
      downsampleBatchLoop resolution lastT add rest nextT (w.foldl FloatAggregator.add aggr) b := by
  induction w generalizing aggr with
  | nil => rfl
  | cons s w ih =>
    have hs : ¬ s.1 > nextT := not_lt.mpr (hw s List.mem_cons_self)
    rw [List.cons_append, downsampleBatchLoop, if_neg hs, ih _ fun q hq => hw q (List.mem_cons_of_mem s hq)]
    rfl

/-- A sample after the open window's end closes that window and opens its own;
the rest of its window is added to it. -/
theorem downsampleBatchLoop_window (s : Int × ℚ) (w rest : List (Int × ℚ)) (nextT : Int)
    (aggr : FloatAggregator) (b : β) (hs : nextT < s.1)
    (hw : ∀ q ∈ w, q.1 ≤ min (currentWindow s.1 resolution) lastT) :
    downsampleBatchLoop resolution lastT add ((s :: w) ++ rest) nextT aggr b =
      downsampleBatchLoop resolution lastT add rest (min (currentWindow s.1 resolution) lastT)
        ((s :: w).foldl FloatAggregator.add aggr.reset) (if nextT ≠ -1 then add nextT aggr b else b) := by
  rw [List.cons_append, downsampleBatchLoop, if_pos hs, downsampleBatchLoop_append_of_le _ _ _ _ _ _ _ _ hw]
  rfl

end Loop

/-! ## Lists cut by `takeWhile` -/

section Lists

variable {α : Type}

/-- What `dropWhile` leaves of a list ordered by `R` is its first element failing `p`
and what comes after it. -/
theorem exists_of_mem_dropWhile {R : α → α → Prop} {p : α → Bool} {l : List α} (h : l.Pairwise R)
    {y : α} (hy : y ∈ l.dropWhile p) : ∃ x ∈ l, p x = false ∧ (x = y ∨ R x y) := by
  obtain ⟨x, xs, hx⟩ := List.exists_cons_of_ne_nil (List.ne_nil_of_mem hy)
  have hpx : p x = false := by simpa [hx] using List.head?_dropWhile_not p l
  have hsub : (x :: xs).Sublist l := hx ▸ List.dropWhile_sublist p
  rw [hx] at hy
  refine ⟨x, hsub.subset List.mem_cons_self, hpx, ?_⟩
  rcases List.mem_cons.mp hy with rfl | hy
  · exact Or.inl rfl
  · exact Or.inr (List.rel_of_pairwise_cons (h.sublist hsub) hy)

theorem le_getLast_of_pairwise (f : α → Int) : ∀ {l : List α} (hne : l ≠ []),
    l.Pairwise (fun a b => f a ≤ f b) → ∀ x ∈ l, f x ≤ f (l.getLast hne)
  | [_], _, _, q, hq => by simp at hq; simp [hq]
  | x :: y :: ys, _, h, q, hq => by
    rw [List.getLast_cons_cons]
    rcases List.mem_cons.mp hq with rfl | hq
    · exact List.rel_of_pairwise_cons h (List.getLast_mem _)
    · exact le_getLast_of_pairwise f (by simp) (List.Pairwise.of_cons h) q hq

theorem take_add_length_takeWhile (l : List α) (j : Nat) (p : α → Bool) :
    l.take (j + ((l.drop j).takeWhile p).length) = l.take j ++ (l.drop j).takeWhile p := by
  rw [List.take_add]
  congr 1
  calc (l.drop j).take ((l.drop j).takeWhile p).length
      = ((l.drop j).takeWhile p ++ (l.drop j).dropWhile p).take ((l.drop j).takeWhile p).length := by
        rw [List.takeWhile_append_dropWhile]
    _ = (l.drop j).takeWhile p := List.take_left

theorem drop_add_length_takeWhile (l : List α) (j : Nat) (p : α → Bool) :
    l.drop (j + ((l.drop j).takeWhile p).length) = (l.drop j).dropWhile p := by
  rw [← List.drop_drop]
  calc ((l.drop j).drop ((l.drop j).takeWhile p).length)
      = ((l.drop j).takeWhile p ++ (l.drop j).dropWhile p).drop ((l.drop j).takeWhile p).length := by
        rw [List.takeWhile_append_dropWhile]
    _ = (l.drop j).dropWhile p := List.drop_left

end Lists

/-! ## The windows of a batch -/

/-- The values of the samples of `xs` in the resolution window that ends at `e`. -/
def windowValues (r e : Int) (xs : List (Int × ℚ)) : List ℚ :=
  (xs.filter fun p => currentWindow p.1 r = e).map Prod.snd

/-- The ends of the resolution windows that hold a sample of `xs`, each once, in order. -/
def windowEnds (r : Int) (xs : List (Int × ℚ)) : List Int :=
  (xs.map fun p => currentWindow p.1 r).dedup

theorem dedup_cons_of_forall_eq {e : Int} {l : List Int} (h : ∀ x ∈ l, x = e) : (e :: l).dedup = [e] := by
  induction l with
  | nil => rw [List.dedup_cons_of_notMem (by simp), List.dedup_nil]
  | cons x l ih =>
    rw [h x List.mem_cons_self, List.dedup_cons_of_mem List.mem_cons_self]
    exact ih fun y hy => h y (List.mem_cons_of_mem x hy)

theorem windowValues_append (r e : Int) (xs ys : List (Int × ℚ)) :
    windowValues r e (xs ++ ys) = windowValues r e xs ++ windowValues r e ys := by
  simp only [windowValues, List.filter_append, List.map_append]

/-- Timestamps that do not decrease and are not negative. -/
structure Ordered (xs : List (Int × ℚ)) : Prop where
  sorted : xs.Pairwise fun p q => p.1 ≤ q.1
  nonneg : ∀ q ∈ xs, 0 ≤ q.1

theorem Ordered.sublist {xs ys : List (Int × ℚ)} (h : Ordered ys) (hs : xs.Sublist ys) : Ordered xs :=
  ⟨h.sorted.sublist hs, fun q hq => h.nonneg q (hs.subset hq)⟩

section Split

/-! A batch `s :: ys` splits into the run of samples in the window of `s` and
the rest, whose samples all lie after that window. -/

variable {r : Int} (hr : 0 < r) {s : Int × ℚ} {ys : List (Int × ℚ)} (h : Ordered (s :: ys))

/-- The rest of the batch after the window of its first sample. -/
abbrev afterWindow (r : Int) (s : Int × ℚ) (ys : List (Int × ℚ)) : List (Int × ℚ) :=
  ys.dropWhile fun q => currentWindow q.1 r = currentWindow s.1 r

/-- The other samples of the window of the first sample. -/
abbrev inWindow (r : Int) (s : Int × ℚ) (ys : List (Int × ℚ)) : List (Int × ℚ) :=
  ys.takeWhile fun q => currentWindow q.1 r = currentWindow s.1 r

theorem inWindow_append_afterWindow : inWindow r s ys ++ afterWindow r s ys = ys :=
  List.takeWhile_append_dropWhile

theorem cons_eq_window_append : s :: ys = (s :: inWindow r s ys) ++ afterWindow r s ys := by
  rw [List.cons_append, inWindow_append_afterWindow]

theorem currentWindow_of_mem_inWindow {q : Int × ℚ} (hq : q ∈ inWindow r s ys) :
    currentWindow q.1 r = currentWindow s.1 r := by
  simpa using List.mem_takeWhile_imp hq

include hr h

/-- Every sample after the window of the first sample lies after its end. -/
theorem lt_of_mem_afterWindow {q : Int × ℚ} (hq : q ∈ afterWindow r s ys) :
    currentWindow s.1 r < q.1 := by
  obtain ⟨x, xs, hx⟩ : ∃ x xs, afterWindow r s ys = x :: xs := List.exists_cons_of_ne_nil (List.ne_nil_of_mem hq)
  have hxw : currentWindow x.1 r ≠ currentWindow s.1 r := by
    have h' := List.head?_dropWhile_not (fun q : Int × ℚ => decide (currentWindow q.1 r = currentWindow s.1 r)) ys
    rw [show (ys.dropWhile _).head? = some x from (congrArg List.head? hx : _)] at h'
    simpa using h'
  have hsub : (x :: xs).Sublist ys := hx ▸ List.dropWhile_sublist _
  have hsx : s.1 ≤ x.1 := List.rel_of_pairwise_cons h.sorted (hsub.subset List.mem_cons_self)
  -- the first sample after the run is past the window's end, and the rest follow it
  have hx_lt : currentWindow s.1 r < x.1 := by
    by_contra hle
    exact hxw (currentWindow_eq_of_le hr (h.nonneg s List.mem_cons_self) hsx (not_lt.mp hle))
  rw [hx] at hq
  rcases List.mem_cons.mp hq with rfl | hq
  · exact hx_lt
  · have hxs := List.rel_of_pairwise_cons ((h.sorted.sublist (List.Sublist.cons s hsub))) hq
    omega

/-- The windows of the rest all differ from the window of the first sample. -/
theorem currentWindow_ne_of_mem_afterWindow {q : Int × ℚ} (hq : q ∈ afterWindow r s ys) :
    currentWindow q.1 r ≠ currentWindow s.1 r := by
  have hlt := lt_of_mem_afterWindow hr h hq
  have hq0 : 0 ≤ q.1 := h.nonneg q (List.mem_cons_of_mem s (List.dropWhile_sublist _ |>.subset hq))
  have := le_currentWindow hr hq0
  omega

theorem windowEnds_cons :
    windowEnds r (s :: ys) = currentWindow s.1 r :: windowEnds r (afterWindow r s ys) := by
  have hdisj : List.Disjoint ((s :: inWindow r s ys).map fun p => currentWindow p.1 r)
      ((afterWindow r s ys).map fun p => currentWindow p.1 r) := by
    intro x hx hx'
    obtain ⟨q, hq, rfl⟩ := List.mem_map.mp hx'
    obtain ⟨p, hp, hpq⟩ := List.mem_map.mp hx
    rcases List.mem_cons.mp hp with rfl | hp
    · exact currentWindow_ne_of_mem_afterWindow hr h hq hpq.symm
    · exact currentWindow_ne_of_mem_afterWindow hr h hq (hpq.symm.trans (currentWindow_of_mem_inWindow hp))
  have hrun : ((s :: inWindow r s ys).map fun p => currentWindow p.1 r).dedup = [currentWindow s.1 r] := by
    rw [List.map_cons]
    exact dedup_cons_of_forall_eq fun x hx => by
      obtain ⟨p, hp, rfl⟩ := List.mem_map.mp hx
      exact currentWindow_of_mem_inWindow hp
  rw [windowEnds, cons_eq_window_append, List.map_append, hdisj.dedup_append, hrun]
  rfl

theorem windowValues_cons_self :
    windowValues r (currentWindow s.1 r) (s :: ys) = (s :: inWindow r s ys).map Prod.snd := by
  rw [cons_eq_window_append, windowValues_append, windowValues, windowValues, List.filter_eq_self.mpr,
    List.filter_eq_nil_iff.mpr, List.map_nil, List.append_nil]
  · intro q hq
    simpa using currentWindow_ne_of_mem_afterWindow hr h hq
  · intro q hq
    rcases List.mem_cons.mp hq with rfl | hq
    · simp
    · simpa using currentWindow_of_mem_inWindow hq

omit hr h in
theorem windowValues_cons_of_ne {e : Int} (he : e ≠ currentWindow s.1 r) :
    windowValues r e (s :: ys) = windowValues r e (afterWindow r s ys) := by
  rw [cons_eq_window_append, windowValues_append, windowValues, List.filter_eq_nil_iff.mpr, List.map_nil,
    List.nil_append]
  intro q hq
  rcases List.mem_cons.mp hq with rfl | hq
  · simpa using Ne.symm he
  · simpa [currentWindow_of_mem_inWindow hq] using Ne.symm he

/-- The windows of a batch are the window of its first sample, then the windows of the rest. -/
theorem windows_cons {γ : Type} (lastT : Int) (F : List ℚ → γ) :
    (windowEnds r (s :: ys)).map (fun e => (min e lastT, F (windowValues r e (s :: ys)))) =
      (min (currentWindow s.1 r) lastT, F ((s :: inWindow r s ys).map Prod.snd)) ::
        (windowEnds r (afterWindow r s ys)).map fun e => (min e lastT, F (windowValues r e (afterWindow r s ys))) := by
  rw [windowEnds_cons hr h, List.map_cons, windowValues_cons_self hr h]
  congr 1
  refine List.map_congr_left fun e he => ?_
  obtain ⟨q, hq, rfl⟩ := List.mem_map.mp (List.mem_dedup.mp he)
  rw [windowValues_cons_of_ne (currentWindow_ne_of_mem_afterWindow hr h hq)]

end Split

theorem downsampleBatchLoop_total {β : Type} (resolution lastT : Int) (add : Int → FloatAggregator → β → β)
    (xs : List (Int × ℚ)) (nextT : Int) (aggr : FloatAggregator) (b : β) :
    (downsampleBatchLoop resolution lastT add xs nextT aggr b).2.1.total = aggr.total + xs.length := by
  induction xs generalizing nextT aggr b with
  | nil => rfl
  | cons s xs ih =>
    rw [downsampleBatchLoop]
    split <;> rw [ih] <;> simp <;> omega

/-! ## Every window closed once -/

/-- The samples the loop still has to read: ordered, finite, and at or before the
batch's last timestamp. -/
structure Pending (lastT : Int) (xs : List (Int × ℚ)) : Prop where
  ordered : Ordered xs
  finite : Finite xs
  le_last : ∀ q ∈ xs, q.1 ≤ lastT

theorem Pending.sublist {lastT : Int} {xs ys : List (Int × ℚ)} (h : Pending lastT ys) (hs : xs.Sublist ys) :
    Pending lastT xs :=
  ⟨h.ordered.sublist hs, fun q hq => h.finite q (hs.subset hq), fun q hq => h.le_last q (hs.subset hq)⟩

/-- The windows the loop has closed, then the one still open. -/
def withOpen (res : Int × FloatAggregator × List (Int × FloatAggregator)) : List (Int × FloatAggregator) :=
  res.2.2 ++ [(res.1, res.2.1)]

section Windows

variable {r lastT : Int} (hr : 0 < r)
include hr

/-- The loop reads the window of the next sample in one go. -/
theorem downsampleBatchLoop_cons_window {β : Type} (add : Int → FloatAggregator → β → β) {s : Int × ℚ}
    {ys : List (Int × ℚ)} (h : Pending lastT (s :: ys)) {nextT : Int} (hs : nextT < s.1)
    (aggr : FloatAggregator) (b : β) :
    downsampleBatchLoop r lastT add (s :: ys) nextT aggr b =
      downsampleBatchLoop r lastT add (afterWindow r s ys) (min (currentWindow s.1 r) lastT)
        ((s :: inWindow r s ys).foldl FloatAggregator.add aggr.reset)
        (if nextT ≠ -1 then add nextT aggr b else b) := by
  have hw : ∀ q ∈ inWindow r s ys, q.1 ≤ min (currentWindow s.1 r) lastT := by
    intro q hq
    have hq' : q ∈ s :: ys := List.mem_cons_of_mem s (List.takeWhile_sublist _ |>.subset hq)
    rw [← currentWindow_of_mem_inWindow hq]
    exact le_min (le_currentWindow hr (h.ordered.nonneg q hq')) (h.le_last q hq')
  rw [cons_eq_window_append]
  exact downsampleBatchLoop_window r lastT add s _ _ nextT aggr b hs hw

omit hr in
theorem length_afterWindow_lt (s : Int × ℚ) (ys : List (Int × ℚ)) :
    (afterWindow r s ys).length < (s :: ys).length :=
  Nat.lt_succ_of_le (List.dropWhile_sublist _).length_le

section Open

variable {s : Int × ℚ} {ys : List (Int × ℚ)} (h : Pending lastT (s :: ys))
include h

omit hr in
theorem Pending.rest : Pending lastT (afterWindow r s ys) :=
  h.sublist (List.Sublist.cons s (List.dropWhile_sublist _))

omit hr in
theorem Pending.window_finite : Finite (s :: inWindow r s ys) :=
  fun q hq => h.finite q (cons_eq_window_append (r := r) ▸ List.mem_append_left _ hq)

/-- The window the first sample opens ends at a non-negative time. -/
theorem Pending.open_nonneg : 0 ≤ min (currentWindow s.1 r) lastT :=
  have hs0 : 0 ≤ s.1 := h.ordered.nonneg s List.mem_cons_self
  le_min (currentWindow_nonneg hr hs0) (le_trans hs0 (h.le_last s List.mem_cons_self))

/-- The samples after the first window all come after its end. -/
theorem Pending.open_lt : ∀ q ∈ afterWindow r s ys, min (currentWindow s.1 r) lastT < q.1 :=
  fun _ hq => lt_of_le_of_lt (min_le_left _ _) (lt_of_mem_afterWindow hr h.ordered hq)

end Open

variable {γ : Type} (stat : FloatAggregator → γ) (F : List ℚ → γ)
  (hstat : ∀ (a : FloatAggregator) (w : List (Int × ℚ)), w ≠ [] → Finite w →
    stat (w.foldl FloatAggregator.add a.reset) = F (w.map Prod.snd))
include hstat

/-- From an open window on, the loop closes every window of the samples left once,
in order, with the aggregator of exactly that window's samples. -/
theorem downsampleBatchLoop_windows (xs : List (Int × ℚ)) (t₀ : Int) (a : FloatAggregator)
    (l : List (Int × FloatAggregator)) (h : Pending lastT xs) (ht₀ : 0 ≤ t₀) (hlt : ∀ q ∈ xs, t₀ < q.1) :
    (withOpen (downsampleBatchLoop r lastT (fun t a l => l ++ [(t, a)]) xs t₀ a l)).map
        (fun p => (p.1, stat p.2)) =
      (l ++ [(t₀, a)]).map (fun p => (p.1, stat p.2)) ++
        (windowEnds r xs).map fun e => (min e lastT, F (windowValues r e xs)) :=
  match xs with
  | [] => by simp [downsampleBatchLoop, withOpen, windowEnds]
  | s :: ys => by
    have hwin := hstat a _ (List.cons_ne_nil _ _) (h.window_finite (r := r))
    rw [downsampleBatchLoop_cons_window hr _ h (hlt s List.mem_cons_self), if_pos (by omega),
      downsampleBatchLoop_windows (afterWindow r s ys) _ _ _ (h.rest (r := r)) (h.open_nonneg hr)
        (h.open_lt hr), windows_cons hr h.ordered]
    simp only [List.map_append, List.map_cons, List.map_nil, hwin, List.append_assoc, List.cons_append,
      List.nil_append]
termination_by xs.length
decreasing_by exact length_afterWindow_lt s ys

/-- `downsampleBatch` over a non-empty batch calls `add` once per resolution window
that holds a sample, in order, at the window's end capped at the batch's last
timestamp, with the aggregator of exactly that window's samples. -/
theorem batchWindows_map (xs : List (Int × ℚ)) (hne : xs ≠ []) (h : Ordered xs) (hfin : Finite xs) :
    (batchWindows xs r {}).map (fun p => (p.1, stat p.2)) =
      (windowEnds r xs).map fun e => (min e (xs.getLast hne).1, F (windowValues r e xs)) := by
  obtain ⟨s, ys, rfl⟩ := List.exists_cons_of_ne_nil hne
  have hp : Pending ((s :: ys).getLast hne).1 (s :: ys) := ⟨h, hfin, le_getLast_of_pairwise Prod.fst hne h.sorted⟩
  have hlastT : ((s :: ys).getLast?.map Prod.fst).getD 0 = ((s :: ys).getLast hne).1 := by
    simp [List.getLast?_eq_some_getLast hne]
  have hs0 : 0 ≤ s.1 := h.nonneg s List.mem_cons_self
  have hwin := hstat {} _ (List.cons_ne_nil _ _) (hp.window_finite (r := r))
  -- the first sample opens the first window without closing one
  simp only [batchWindows, downsampleBatch, hlastT]
  rw [downsampleBatchLoop_cons_window hr _ hp (by omega), if_pos (by rw [downsampleBatchLoop_total, FloatAggregator.foldl_add_total, List.length_cons]; omega),
    if_neg (by simp)]
  have hloop := downsampleBatchLoop_windows hr stat F hstat (afterWindow r s ys) _
    ((s :: inWindow r s ys).foldl FloatAggregator.add ({} : FloatAggregator).reset) [] (hp.rest (r := r))
    (hp.open_nonneg hr) (hp.open_lt hr)
  simp only [withOpen] at hloop
  rw [hloop, windows_cons hr h]
  simp only [List.map_cons, List.map_nil, hwin, List.nil_append, List.cons_append]

end Windows

/-! ## The chunk of a batch -/

section Builder

theorem AggrChunkBuilder.foldl_add_get (ws : List (Int × FloatAggregator)) (b : AggrChunkBuilder)
    (x : AggrType) :
    (ws.foldl (fun b p => b.add p.1 p.2) b).chunks.get x =
      (b.chunks.get x).map (· ++ ws.map fun p => (p.1, p.2.value x)) := by
  induction ws generalizing b with
  | nil => simp
  | cons p ws ih =>
    rw [List.foldl_cons, ih, AggrChunkBuilder.add_get, Option.map_map]
    simp [Function.comp_def]

theorem AggrChunkBuilder.le_foldl_add_mint_iff (ws : List (Int × FloatAggregator)) (b : AggrChunkBuilder)
    (lo : Int) :
    lo ≤ (ws.foldl (fun b p => b.add p.1 p.2) b).mint ↔ lo ≤ b.mint ∧ ∀ p ∈ ws, lo ≤ p.1 := by
  induction ws generalizing b with
  | nil => simp
  | cons p ws ih =>
    rw [List.foldl_cons, ih, AggrChunkBuilder.add_mint, le_min_iff, List.forall_mem_cons]
    exact ⟨fun ⟨⟨h₁, h₂⟩, h₃⟩ => ⟨h₂, h₁, h₃⟩, fun ⟨h₂, h₁, h₃⟩ => ⟨⟨h₁, h₂⟩, h₃⟩⟩

theorem AggrChunkBuilder.foldl_add_maxt_le_iff (ws : List (Int × FloatAggregator)) (b : AggrChunkBuilder)
    (hi : Int) :
    (ws.foldl (fun b p => b.add p.1 p.2) b).maxt ≤ hi ↔ b.maxt ≤ hi ∧ ∀ p ∈ ws, p.1 ≤ hi := by
  induction ws generalizing b with
  | nil => simp
  | cons p ws ih =>
    rw [List.foldl_cons, ih, AggrChunkBuilder.add_maxt, max_le_iff, List.forall_mem_cons]
    exact ⟨fun ⟨⟨h₁, h₂⟩, h₃⟩ => ⟨h₂, h₁, h₃⟩, fun ⟨h₂, h₁, h₃⟩ => ⟨⟨h₁, h₂⟩, h₃⟩⟩

/-- `downsampleFloatBatch` feeds the windows of `batchWindows` to a builder; only the
counter sub-chunk gets more than the windows. -/
theorem downsampleFloatBatch_fields (g : List (Int × ℚ)) (r : Int) :
    let ab := (batchWindows g r {}).foldl (fun b p => b.add p.1 p.2)
      { newAggrChunkBuilder with chunks := newAggrChunkBuilder.chunks.append .counter (g.headD (0, 0)) }
    (downsampleFloatBatch g r).minTime = ab.mint ∧ (downsampleFloatBatch g r).maxTime = ab.maxt ∧
      ∀ x, x ≠ .counter → (downsampleFloatBatch g r).chunk.get x = ab.chunks.get x := by
  simp only [downsampleFloatBatch, AggrChunkBuilder.encode]
  rw [downsampleBatch_eq_foldl]
  exact ⟨rfl, rfl, fun x hx => AggrChunk.get_append_of_ne _ _ (Ne.symm hx)⟩

theorem downsampleFloatBatch_get (g : List (Int × ℚ)) (r : Int) {x : AggrType} (hx : x ≠ .counter) :
    (downsampleFloatBatch g r).chunk.get x = some ((batchWindows g r {}).map fun p => (p.1, p.2.value x)) := by
  rw [(downsampleFloatBatch_fields g r).2.2 x hx, AggrChunkBuilder.foldl_add_get,
    AggrChunk.get_append_of_ne _ _ (Ne.symm hx)]
  cases x <;> rfl

theorem le_downsampleFloatBatch_minTime_iff (g : List (Int × ℚ)) (r lo : Int) :
    lo ≤ (downsampleFloatBatch g r).minTime ↔ lo ≤ maxInt64 ∧ ∀ p ∈ batchWindows g r {}, lo ≤ p.1 := by
  rw [(downsampleFloatBatch_fields g r).1, AggrChunkBuilder.le_foldl_add_mint_iff]
  rfl

theorem downsampleFloatBatch_maxTime_le_iff (g : List (Int × ℚ)) (r hi : Int) :
    (downsampleFloatBatch g r).maxTime ≤ hi ↔ minInt64 ≤ hi ∧ ∀ p ∈ batchWindows g r {}, p.1 ≤ hi := by
  rw [(downsampleFloatBatch_fields g r).2.1, AggrChunkBuilder.foldl_add_maxt_le_iff]
  rfl

end Builder

/-! ## The chunk of an ordered batch -/

theorem mem_windowEnds {r e : Int} {xs : List (Int × ℚ)} :
    e ∈ windowEnds r xs ↔ ∃ p ∈ xs, currentWindow p.1 r = e := by
  simp [windowEnds]

section Chunk

variable {r : Int} (hr : 0 < r) {g : List (Int × ℚ)} (hne : g ≠ []) (h : Ordered g) (hfin : Finite g)
include hr h hfin

/-- Sub-chunk `x` holds, per window of the batch, `F` of the window's values. -/
theorem downsampleFloatBatch_get_windows {γ : Type} {x : AggrType} (hx : x ≠ .counter) (φ : ℚ → γ)
    (F : List ℚ → γ)
    (hstat : ∀ (a : FloatAggregator) (w : List (Int × ℚ)), w ≠ [] → Finite w →
      φ ((w.foldl FloatAggregator.add a.reset).value x) = F (w.map Prod.snd)) :
    ((downsampleFloatBatch g r).chunk.get x).map (List.map fun p => (p.1, φ p.2)) =
      some ((windowEnds r g).map fun e => (min e (g.getLast hne).1, F (windowValues r e g))) := by
  rw [downsampleFloatBatch_get g r hx, Option.map_some, List.map_map]
  exact congrArg some (batchWindows_map hr (fun a => φ (a.value x)) F hstat g hne h hfin)

/-- The window ends `add` is called with, one per window of the batch. -/
theorem batchWindows_fst :
    (batchWindows g r {}).map Prod.fst = (windowEnds r g).map fun e => min e (g.getLast hne).1 := by
  have := congrArg (List.map Prod.fst)
    (batchWindows_map hr (fun _ => ()) (fun _ => ()) (fun _ _ _ _ => rfl) g hne h hfin)
  simpa [List.map_map, Function.comp_def] using this

/-- The count, sum, min and max sub-chunks hold one sample per window of the batch: the
count, sum, least and greatest of the window's values. -/
theorem downsampleFloatBatch_aggregates :
    (downsampleFloatBatch g r).chunk.count =
        some ((windowEnds r g).map fun e => (min e (g.getLast hne).1, ((windowValues r e g).length : ℚ))) ∧
      (downsampleFloatBatch g r).chunk.sum =
        some ((windowEnds r g).map fun e => (min e (g.getLast hne).1, (windowValues r e g).sum)) ∧
      (downsampleFloatBatch g r).chunk.min.map (List.map fun p => (p.1, (p.2 : WithTop ℚ))) =
        some ((windowEnds r g).map fun e => (min e (g.getLast hne).1, (windowValues r e g).minimum)) ∧
      (downsampleFloatBatch g r).chunk.max.map (List.map fun p => (p.1, (p.2 : WithBot ℚ))) =
        some ((windowEnds r g).map fun e => (min e (g.getLast hne).1, (windowValues r e g).maximum)) := by
  have hcount := downsampleFloatBatch_get_windows hr hne h hfin (x := .count) (by decide) (fun v => v)
    (fun vs => (vs.length : ℚ)) fun a w _ _ => by
      simp [FloatAggregator.value, FloatAggregator.foldl_add_count]
  have hsum := downsampleFloatBatch_get_windows hr hne h hfin (x := .sum) (by decide) (fun v => v)
    List.sum fun a w _ _ => by
      simp [FloatAggregator.value, FloatAggregator.foldl_add_sum]
  refine ⟨by simpa [AggrChunk.get] using hcount, by simpa [AggrChunk.get] using hsum, ?_, ?_⟩
  · exact downsampleFloatBatch_get_windows hr hne h hfin (x := .min) (by decide) _ List.minimum
      fun a w hw hwf => FloatAggregator.window_min hw hwf a
  · exact downsampleFloatBatch_get_windows hr hne h hfin (x := .max) (by decide) _ List.maximum
      fun a w hw hwf => FloatAggregator.window_max hw hwf a

/-- Every window end of the batch lies between its first and its last timestamp, and
the last one is the last timestamp. -/
theorem batchWindows_bounds :
    (∀ t ∈ (batchWindows g r {}).map Prod.fst, (g.head hne).1 ≤ t ∧ t ≤ (g.getLast hne).1) ∧
      (g.getLast hne).1 ∈ (batchWindows g r {}).map Prod.fst := by
  rw [batchWindows_fst hr hne h hfin]
  have hhead : ∀ q ∈ g, (g.head hne).1 ≤ q.1 := by
    obtain ⟨y, ys, rfl⟩ := List.exists_cons_of_ne_nil hne
    intro q hq
    rcases List.mem_cons.mp hq with rfl | hq
    · exact le_refl _
    · exact List.rel_of_pairwise_cons h.sorted hq
  have hlast := List.getLast_mem hne
  refine ⟨fun t ht => ?_, ?_⟩
  · obtain ⟨e, he, rfl⟩ := List.mem_map.mp ht
    obtain ⟨q, hq, rfl⟩ := mem_windowEnds.mp he
    exact ⟨le_min (le_trans (hhead q hq) (le_currentWindow hr (h.nonneg q hq))) (hhead _ hlast),
      min_le_right _ _⟩
  · -- the window of the last sample ends at or after it
    refine List.mem_map.mpr ⟨currentWindow (g.getLast hne).1 r, mem_windowEnds.mpr ⟨_, hlast, rfl⟩, ?_⟩
    exact min_eq_right (le_currentWindow hr (h.nonneg _ hlast))

/-- The chunk's time range runs from the first window end to the last timestamp. -/
theorem downsampleFloatBatch_times (hmax : (g.getLast hne).1 ≤ maxInt64) :
    (g.head hne).1 ≤ (downsampleFloatBatch g r).minTime ∧
      (downsampleFloatBatch g r).minTime ≤ (downsampleFloatBatch g r).maxTime ∧
      (downsampleFloatBatch g r).maxTime = (g.getLast hne).1 := by
  obtain ⟨hb, hlast⟩ := batchWindows_bounds hr hne h hfin
  obtain ⟨p, hp, hpl⟩ := List.mem_map.mp hlast
  have hhl : (g.head hne).1 ≤ (g.getLast hne).1 := (hb _ hlast).1
  have hmin : (g.head hne).1 ≤ (downsampleFloatBatch g r).minTime :=
    (le_downsampleFloatBatch_minTime_iff g r _).mpr
      ⟨le_trans hhl hmax, fun p hp => (hb p.1 (List.mem_map_of_mem hp)).1⟩
  have hminle : (downsampleFloatBatch g r).minTime ≤ (g.getLast hne).1 :=
    hpl ▸ ((le_downsampleFloatBatch_minTime_iff g r _).mp (le_refl _)).2 p hp
  have hmaxle : (downsampleFloatBatch g r).maxTime ≤ (g.getLast hne).1 :=
    (downsampleFloatBatch_maxTime_le_iff g r _).mpr
      ⟨by have := h.nonneg _ (List.getLast_mem hne); simp only [minInt64]; omega,
        fun p hp => (hb p.1 (List.mem_map_of_mem hp)).2⟩
  have hlemax : (g.getLast hne).1 ≤ (downsampleFloatBatch g r).maxTime :=
    hpl ▸ ((downsampleFloatBatch_maxTime_le_iff g r _).mp (le_refl _)).2 p hp
  exact ⟨hmin, le_trans hminle hlemax, le_antisymm hmaxle hlemax⟩

end Chunk

/-! ## The batches of `downsampleRawLoop` -/

section Batches

variable {r : Int} (hr : 0 < r)

/-- Extending a cut to the end of a window: every sample taken is at or before the
window's end, every sample left is after it. -/
theorem cut_at_window {X : List Sample} (hsorted : X.Pairwise fun s s' => s.t ≤ s'.t) (j : Nat) (c : Int)
    (hc : ∀ s ∈ X.take j, s.t ≤ c) :
    (∀ s ∈ X.take (j + ((X.drop j).takeWhile (·.t ≤ c)).length), s.t ≤ c) ∧
      ∀ s ∈ X.drop (j + ((X.drop j).takeWhile (·.t ≤ c)).length), c < s.t := by
  rw [take_add_length_takeWhile, drop_add_length_takeWhile]
  constructor
  · intro s hs
    rcases List.mem_append.mp hs with hs | hs
    · exact hc s hs
    · simpa using List.mem_takeWhile_imp hs
  · intro s hs
    obtain ⟨x, -, hx, hxs⟩ := exists_of_mem_dropWhile (hsorted.sublist (List.drop_sublist j X)) hs
    have hx : c < x.t := by simpa using hx
    rcases hxs with rfl | hxs
    · exact hx
    · exact lt_of_lt_of_le hx hxs

include hr

/-- A sample at or before the end of the window of `x` lies in an earlier window than
one after it. -/
theorem currentWindow_lt_of_le_lt {x s s' : Int} (hx : 0 ≤ x) (hs : 0 ≤ s) (h₁ : s ≤ currentWindow x r)
    (h₂ : currentWindow x r < s') : currentWindow s r < currentWindow s' r :=
  have := currentWindow_nonneg hr hx
  lt_of_le_of_lt (currentWindow_le_of_le hr hs hx h₁) (lt_of_lt_of_le h₂ (le_currentWindow hr (by omega)))

/-- The batch `downsampleRawLoop` takes ends with a whole window: every sample it
takes lies in an earlier window than every sample it leaves. -/
theorem downsampleRawLoop_cut_separates (q : Nat) {d : Sample} {ds : List Sample}
    (hsorted : (d :: ds).Pairwise fun s s' => s.t ≤ s'.t) (hnn : ∀ s ∈ d :: ds, 0 ≤ s.t) :
    let j := min (q + 1) (ds.length + 1)
    let curW := currentWindow (((d :: ds).take j).getLastD d).t r
    let j' := j + (((d :: ds).drop j).takeWhile (·.t ≤ curW)).length
    ∀ s ∈ (d :: ds).take j', ∀ s' ∈ (d :: ds).drop j', currentWindow s.t r < currentWindow s'.t r := by
  intro j curW j' s hs s' hs'
  have hne : (d :: ds).take j ≠ [] := by simp [j]
  -- the window the cut extends to is the window of the last sample of the first `j`
  have hx : ((d :: ds).take j).getLastD d = ((d :: ds).take j).getLast hne := by
    rw [List.getLastD_eq_getLast?, List.getLast?_eq_some_getLast hne, Option.getD_some]
  have hx0 : 0 ≤ (((d :: ds).take j).getLastD d).t := hnn _ (hx ▸ List.take_subset _ _ (List.getLast_mem hne))
  have hc : ∀ s ∈ (d :: ds).take j, s.t ≤ curW := by
    intro s hs
    have := le_getLast_of_pairwise Sample.t hne (hsorted.sublist (List.take_sublist j _)) s hs
    rw [← hx] at this
    exact le_trans this (le_currentWindow hr hx0)
  obtain ⟨hle, hlt⟩ := cut_at_window hsorted j curW hc
  exact currentWindow_lt_of_le_lt hr hx0 (hnn s (List.take_subset _ _ hs)) (hle s hs) (hlt s' hs')

/-- `downsampleRawLoop` cuts the series into parts whose windows follow each other,
and downsamples the numeric samples of each part that has any. -/
theorem downsampleRawLoopGo_parts (q : Nat) (fn : List (Int × ℚ) → Int → ChunkMeta) (data : List Sample)
    (hsorted : data.Pairwise fun s s' => s.t ≤ s'.t) (hnn : ∀ s ∈ data, 0 ≤ s.t) :
    ∃ parts : List (List Sample),
      downsampleRawLoopGo r q fn data = ((parts.map numeric).filter (· ≠ [])).map (fn · r) ∧
      parts.flatten = data ∧
      parts.Pairwise fun p p' => ∀ s ∈ p, ∀ s' ∈ p', currentWindow s.t r < currentWindow s'.t r := by
  fun_induction downsampleRawLoopGo r q fn data with
  | case1 => exact ⟨[], rfl, rfl, List.Pairwise.nil⟩
  | case2 d ds j curW j' batch rest h ih =>
    -- a part without numeric samples gives no chunk
    obtain ⟨parts, hrest, hflat, hpw⟩ :=
      ih (hsorted.sublist (List.drop_sublist _ _)) fun s hs => hnn s (List.drop_subset _ _ hs)
    refine ⟨(d :: ds).take j' :: parts, ?_, ?_, ?_⟩
    · rw [List.map_cons, List.filter_cons_of_neg (by simpa using h)]
      exact hrest
    · rw [List.flatten_cons, hflat, List.take_append_drop]
    · refine List.pairwise_cons.mpr ⟨fun p hp s hs s' hs' => ?_, hpw⟩
      exact downsampleRawLoop_cut_separates hr q hsorted hnn s hs s'
        (hflat ▸ List.mem_flatten.mpr ⟨p, hp, hs'⟩)
  | case3 d ds j curW j' batch rest h ih =>
    obtain ⟨parts, hrest, hflat, hpw⟩ :=
      ih (hsorted.sublist (List.drop_sublist _ _)) fun s hs => hnn s (List.drop_subset _ _ hs)
    refine ⟨(d :: ds).take j' :: parts, ?_, ?_, ?_⟩
    · rw [List.map_cons, List.filter_cons_of_pos (by simpa using h), List.map_cons]
      exact congrArg (fn batch r :: ·) hrest
    · rw [List.flatten_cons, hflat, List.take_append_drop]
    · refine List.pairwise_cons.mpr ⟨fun p hp s hs s' hs' => ?_, hpw⟩
      exact downsampleRawLoop_cut_separates hr q hsorted hnn s hs s'
        (hflat ▸ List.mem_flatten.mpr ⟨p, hp, hs'⟩)

end Batches

/-! ## Batches whose windows follow each other -/

section Separated

variable {r : Int}

/-- The windows of each batch all come before the windows of every later batch. -/
def Separated (r : Int) (gs : List (List (Int × ℚ))) : Prop :=
  gs.Pairwise fun g g' => ∀ p ∈ g, ∀ p' ∈ g', currentWindow p.1 r < currentWindow p'.1 r

theorem windowValues_eq_nil {e : Int} {xs : List (Int × ℚ)} (h : ∀ p ∈ xs, currentWindow p.1 r ≠ e) :
    windowValues r e xs = [] := by
  simpa [windowValues, List.filter_eq_nil_iff] using h

theorem windowEnds_flatten : ∀ {gs : List (List (Int × ℚ))}, Separated r gs →
    windowEnds r gs.flatten = gs.flatMap (windowEnds r)
  | [], _ => rfl
  | g :: gs, h => by
    obtain ⟨hg, hgs⟩ := List.pairwise_cons.mp h
    -- a later batch shares no window with `g`
    have hdisj : List.Disjoint (g.map fun p => currentWindow p.1 r)
        (gs.flatten.map fun p => currentWindow p.1 r) := by
      intro x hx hx'
      obtain ⟨p, hp, rfl⟩ := List.mem_map.mp hx
      obtain ⟨p', hp', hpp'⟩ := List.mem_map.mp hx'
      obtain ⟨g', hg', hp'⟩ := List.mem_flatten.mp hp'
      exact ne_of_gt (hg g' hg' p hp p' hp') hpp'
    rw [List.flatten_cons, windowEnds, List.map_append, hdisj.dedup_append, List.flatMap_cons,
      ← windowEnds_flatten hgs]
    rfl

/-- A window of one batch holds the same values in the whole series. -/
theorem windowValues_flatten : ∀ {gs : List (List (Int × ℚ))}, Separated r gs →
    ∀ {g : List (Int × ℚ)}, g ∈ gs → ∀ {e : Int}, e ∈ windowEnds r g →
      windowValues r e gs.flatten = windowValues r e g
  | [], _, _, hg, _, _ => absurd hg List.not_mem_nil
  | g₀ :: gs, h, g, hg, e, he => by
    obtain ⟨hg₀, hgs⟩ := List.pairwise_cons.mp h
    obtain ⟨q, hq, rfl⟩ := mem_windowEnds.mp he
    rw [List.flatten_cons, windowValues_append]
    rcases List.mem_cons.mp hg with rfl | hg
    · -- the later batches lie after the window
      have hlater : windowValues r (currentWindow q.1 r) gs.flatten = [] := by
        refine windowValues_eq_nil fun p' hp' => ?_
        obtain ⟨g', hg', hp'⟩ := List.mem_flatten.mp hp'
        exact ne_of_gt (hg₀ g' hg' q hq p' hp')
      rw [hlater, List.append_nil]
    · -- the earlier batch lies before it
      have hearlier : windowValues r (currentWindow q.1 r) g₀ = [] :=
        windowValues_eq_nil fun p hp => ne_of_lt (hg₀ g hg p hp q hq)
      rw [hearlier, List.nil_append, windowValues_flatten hgs hg he]

theorem length_windowValues (r e : Int) (xs : List (Int × ℚ)) :
    (windowValues r e xs).length = (xs.map fun p => currentWindow p.1 r).count e := by
  rw [windowValues, List.length_map, List.count_eq_countP, List.countP_map, List.countP_eq_length_filter]
  exact congrArg List.length (List.filter_congr fun p _ => rfl)

/-- Every sample lies in exactly one window: the windows' counts add up to the samples. -/
theorem sum_length_windowValues (xs : List (Int × ℚ)) :
    ((windowEnds r xs).map fun e => ((windowValues r e xs).length : ℚ)).sum = xs.length := by
  have h := List.sum_map_count_dedup_eq_length (xs.map fun p => currentWindow p.1 r)
  rw [List.length_map] at h
  have hq := congrArg (Nat.cast : ℕ → ℚ) h
  rw [Nat.cast_list_sum, List.map_map] at hq
  simpa only [windowEnds, length_windowValues, Function.comp_def] using hq

end Separated

/-! ## `DownsampleRaw` per window -/

theorem numeric_flatten (parts : List (List Sample)) : numeric parts.flatten = (parts.map numeric).flatten :=
  List.filterMap_flatten

/-- Samples in an earlier window are earlier. -/
theorem lt_of_currentWindow_lt {r : Int} (hr : 0 < r) {t t' : Int} (ht' : 0 ≤ t')
    (h : currentWindow t r < currentWindow t' r) : t < t' := by
  by_contra hle
  exact absurd h (not_lt.mpr (currentWindow_mono hr ht' (not_lt.mp hle)))

section DownsampleRaw

variable {data : List Sample} {r : Int} (hr : 0 < r) (hsorted : data.Pairwise fun s s' => s.t ≤ s'.t)
  (ht : ∀ s ∈ data, 0 ≤ s.t ∧ s.t + (r - 1) ≤ maxInt64)
  (hv : ∀ s ∈ data, ∀ v ∈ s.v, -maxFloat64 ≤ v ∧ v ≤ maxFloat64)

include hsorted ht in
theorem ordered_numeric : Ordered (numeric data) := by
  refine ⟨List.pairwise_filterMap.mpr (hsorted.imp fun {s s'} hss' => ?_), fun p hp => ?_⟩
  · intro b hb b' hb'
    obtain ⟨v, -, rfl⟩ := Option.map_eq_some_iff.mp hb
    obtain ⟨v', -, rfl⟩ := Option.map_eq_some_iff.mp hb'
    exact hss'
  · obtain ⟨s, hs, hst, -⟩ := mem_numeric.mp hp
    exact hst ▸ (ht s hs).1

include hv in
theorem finite_numeric : Finite (numeric data) := by
  intro p hp
  obtain ⟨s, hs, -, hsv⟩ := mem_numeric.mp hp
  exact hv s hs p.2 hsv

/-- The batches `downsampleRawLoop` hands to `downsampleFloatBatch`: the numeric
samples cut into non-empty runs of whole windows. -/
structure RawBatches (r : Int) (xs : List (Int × ℚ)) (gs : List (List (Int × ℚ))) : Prop where
  flatten : gs.flatten = xs
  ne_nil : [] ∉ gs
  separated : Separated r gs

include hr hsorted ht in
theorem downsampleRawLoop_rawBatches (numChunks : Nat) :
    ∃ gs, RawBatches r (numeric data) gs ∧
      downsampleRawLoop data r numChunks downsampleFloatBatch = gs.map (downsampleFloatBatch · r) := by
  obtain ⟨parts, hchks, hflat, hpw⟩ :=
    downsampleRawLoopGo_parts hr (data.length / numChunks) downsampleFloatBatch data hsorted fun s hs => (ht s hs).1
  refine ⟨(parts.map numeric).filter (· ≠ []), ⟨?_, ?_, ?_⟩, hchks⟩
  · rw [List.flatten_filter_ne_nil, ← numeric_flatten, hflat]
  · simp
  · -- the numeric samples of a part keep the part's windows
    refine (List.pairwise_map.mpr (hpw.imp fun {a b} hab => ?_)).sublist List.filter_sublist
    intro p hp p' hp'
    obtain ⟨s, hs, hst, -⟩ := mem_numeric.mp hp
    obtain ⟨s', hs', hst', -⟩ := mem_numeric.mp hp'
    exact hst ▸ hst' ▸ hab s hs s' hs'

include ht in
theorem numeric_le_maxInt64 (hr : 0 < r) : ∀ q ∈ numeric data, q.1 ≤ maxInt64 := by
  intro q hq
  obtain ⟨s, hs, hst, -⟩ := mem_numeric.mp hq
  have := (ht s hs).2
  omega

end DownsampleRaw

/-- The window `[0, 4]` holds the tie, the NaN is dropped, and the end of the window
`[5, 9]` is capped at the last timestamp `7`. -/
example :
    (downsampleRawLoop [⟨0, some 1⟩, ⟨0, some 3⟩, ⟨4, none⟩, ⟨7, some 2⟩] 5 1 downsampleFloatBatch).map
      (·.chunk.count) = [some [(4, 2), (7, 1)]] := by
  simp [downsampleRawLoop, downsampleRawLoopGo, numeric, currentWindow]
  decide

end Thanos.Downsample
