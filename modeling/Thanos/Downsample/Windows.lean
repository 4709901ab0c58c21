import Thanos.Downsample.Raw
import Thanos.Lib.CounterTotal

/-! # The windows of `downsampleBatch`

`downsampleBatch` calls `add` once per resolution window that holds a sample,
with the window's end capped at the batch's last timestamp and with the
aggregator as it stands after the window's last sample. This module states
that once, as the list `batchWindows`, and then proves what the list looks
like for a batch with increasing non-negative timestamps: its ends strictly
increase and are the capped window ends of the batch's samples, the last is
the last timestamp, and the counter state at each end is the reset-corrected
total of the samples up to it. -/

namespace Thanos.Downsample

open CounterTotal

/-! ## Window arithmetic -/

section Window

variable {r : Int}

theorem currentWindow_eq {t : Int} (ht : 0 ≤ t) :
    currentWindow t r = r * (t / r) + (r - 1) := by
  rw [currentWindow, Int.tmod_eq_emod_of_nonneg ht, Int.emod_def]
  omega

theorem le_currentWindow (hr : 0 < r) {t : Int} (ht : 0 ≤ t) : t ≤ currentWindow t r := by
  have := Int.lt_mul_ediv_self_add (x := t) hr
  rw [currentWindow_eq ht]
  omega

theorem currentWindow_nonneg (hr : 0 < r) {t : Int} (ht : 0 ≤ t) : 0 ≤ currentWindow t r :=
  le_trans ht (le_currentWindow hr ht)

/-- A timestamp between `t` and its window end lies in the same window. -/
theorem currentWindow_eq_of_le (hr : 0 < r) {t s : Int} (ht : 0 ≤ t) (hts : t ≤ s)
    (hs : s ≤ currentWindow t r) : currentWindow s r = currentWindow t r := by
  have hq : s / r = t / r := by
    have h1 : t / r ≤ s / r := Int.ediv_le_ediv hr hts
    have h2 : s / r < t / r + 1 := by
      rw [Int.ediv_lt_iff_lt_mul hr]
      rw [currentWindow_eq ht] at hs
      rw [Int.add_mul, Int.one_mul, Int.mul_comm]
      omega
    omega
  rw [currentWindow_eq (le_trans ht hts), currentWindow_eq ht, hq]

theorem currentWindow_mono (hr : 0 < r) {t s : Int} (ht : 0 ≤ t) (hts : t ≤ s) :
    currentWindow t r ≤ currentWindow s r := by
  have hq : t / r ≤ s / r := Int.ediv_le_ediv hr hts
  have : r * (t / r) ≤ r * (s / r) := Int.mul_le_mul_of_nonneg_left hq (le_of_lt hr)
  rw [currentWindow_eq ht, currentWindow_eq (le_trans ht hts)]
  omega

/-- `r * m + (r - 1)` is the end of its own window. -/
theorem currentWindow_of_end (hr : 0 < r) {m : Int} (hm : 0 ≤ m) :
    currentWindow (r * m + (r - 1)) r = r * m + (r - 1) := by
  have h0 : 0 ≤ r * m + (r - 1) := by
    have := Int.mul_nonneg (le_of_lt hr) hm
    omega
  have hdiv : (r * m + (r - 1)) / r = m := by
    rw [Int.add_comm, Int.add_mul_ediv_left _ _ (Int.ne_of_gt hr),
      Int.ediv_eq_zero_of_lt (by omega) (by omega), Int.zero_add]
  rw [currentWindow_eq h0, hdiv]

theorem currentWindow_idem (hr : 0 < r) {t : Int} (ht : 0 ≤ t) :
    currentWindow (currentWindow t r) r = currentWindow t r := by
  rw [currentWindow_eq ht]
  exact currentWindow_of_end hr (Int.ediv_nonneg ht (le_of_lt hr))

/-- A timestamp at or before a window end has its own window end at or before it. -/
theorem currentWindow_le_of_le (hr : 0 < r) {t s : Int} (hs : 0 ≤ s) (ht : 0 ≤ t)
    (hst : s ≤ currentWindow t r) : currentWindow s r ≤ currentWindow t r := by
  have := currentWindow_mono hr hs hst
  rwa [currentWindow_idem hr ht] at this

/-- Windows of a resolution that `r` divides are unions of windows of `r`. -/
theorem currentWindow_le_of_dvd (hr : 0 < r) {r₂ : Int} (hr₂ : 0 < r₂) (hd : r ∣ r₂)
    {t : Int} (ht : 0 ≤ t) : currentWindow t r ≤ currentWindow t r₂ := by
  obtain ⟨k, rfl⟩ := hd
  have hk : 0 < k := by
    rcases Int.lt_or_le 0 k with h | h
    · exact h
    · have := Int.mul_nonpos_of_nonneg_of_nonpos (le_of_lt hr) h; omega
  have hq : 0 ≤ t / (r * k) := Int.ediv_nonneg ht (le_of_lt hr₂)
  -- the coarse window end is the end of a fine window
  have hend : currentWindow t (r * k) = r * (k * (t / (r * k)) + (k - 1)) + (r - 1) := by
    rw [currentWindow_eq ht, Int.mul_add, Int.mul_sub, ← Int.mul_assoc]
    omega
  have hm : 0 ≤ k * (t / (r * k)) + (k - 1) := by
    have := Int.mul_nonneg (le_of_lt hk) hq
    omega
  have hfix : currentWindow (currentWindow t (r * k)) r = currentWindow t (r * k) := by
    rw [hend]; exact currentWindow_of_end hr hm
  have := currentWindow_mono hr ht (le_currentWindow hr₂ ht)
  rwa [hfix] at this

end Window

/-! ## The windows as a list -/

/-- The counter state of an aggregator: its last value and counter, once it has
seen a sample. -/
def FloatAggregator.counterState (a : FloatAggregator) : Option (ℚ × ℚ) :=
  if a.total = 0 then none else some (a.last, a.counter)

@[simp] theorem FloatAggregator.counterState_reset (a : FloatAggregator) :
    a.reset.counterState = a.counterState := rfl

@[simp] theorem FloatAggregator.counterState_add (a : FloatAggregator) (s : Int × ℚ) :
    (a.add s).counterState = some (push a.counterState s.2) := by
  unfold FloatAggregator.counterState FloatAggregator.add push delta
  by_cases h : a.total = 0
  · simp [h]
  · have hpos : 0 < a.total := Nat.pos_of_ne_zero h
    by_cases hl : s.2 < a.last
    · simp [h, hpos, hl, not_le.mpr hl]
    · simp [h, hpos, hl, not_lt.mp hl]

variable {β : Type}

/-- The windows `downsampleBatch` closes, in order: the end it passes to `add`
and the aggregator after the window's last sample. -/
def batchWindows (data : List (Int × ℚ)) (resolution : Int) (aggr : FloatAggregator) :
    List (Int × FloatAggregator) :=
  (downsampleBatch data resolution aggr (fun t a (l : List (Int × FloatAggregator)) => l ++ [(t, a)]) []).2

/-- The loop collecting windows from `l` collects them after `l`. -/
theorem downsampleBatchLoop_collect (resolution lastT : Int) (data : List (Int × ℚ)) (nextT : Int)
    (aggr : FloatAggregator) (l : List (Int × FloatAggregator)) :
    downsampleBatchLoop resolution lastT (fun t a l => l ++ [(t, a)]) data nextT aggr l =
      let w := downsampleBatchLoop resolution lastT (fun t a l => l ++ [(t, a)]) data nextT aggr []
      (w.1, w.2.1, l ++ w.2.2) := by
  induction data generalizing nextT aggr l with
  | nil => simp [downsampleBatchLoop]
  | cons s rest ih =>
    simp only [downsampleBatchLoop]
    split
    · rw [ih, ih (l := if nextT ≠ -1 then [] ++ [(nextT, aggr)] else [])]
      split <;> simp
    · rw [ih, ih (l := [])]

/-- `add` is called once per window of `batchWindows`, in order. -/
theorem downsampleBatchLoop_eq_foldl (resolution lastT : Int) (add : Int → FloatAggregator → β → β)
    (data : List (Int × ℚ)) (nextT : Int) (aggr : FloatAggregator) (b : β) :
    downsampleBatchLoop resolution lastT add data nextT aggr b =
      let w := downsampleBatchLoop resolution lastT (fun t a l => l ++ [(t, a)]) data nextT aggr []
      (w.1, w.2.1, w.2.2.foldl (fun b p => add p.1 p.2 b) b) := by
  induction data generalizing nextT aggr b with
  | nil => simp [downsampleBatchLoop]
  | cons s rest ih =>
    simp only [downsampleBatchLoop]
    split
    · rw [ih]
      split
      · rw [downsampleBatchLoop_collect _ _ _ _ _ ([] ++ [(nextT, aggr)])]
        simp
      · simp
    · rw [ih]

theorem downsampleBatch_eq_foldl (data : List (Int × ℚ)) (resolution : Int) (aggr : FloatAggregator)
    (add : Int → FloatAggregator → β → β) (b : β) :
    downsampleBatch data resolution aggr add b =
      ((downsampleBatch data resolution aggr (fun t a (l : List (Int × FloatAggregator)) => l ++ [(t, a)]) []).1,
        (batchWindows data resolution aggr).foldl (fun b p => add p.1 p.2 b) b) := by
  simp only [batchWindows, downsampleBatch, downsampleBatchLoop_eq_foldl resolution _ add]
  split <;> simp

/-- The end `downsampleBatch` gives the window of a sample: its window end, capped at
the batch's last timestamp. -/
def windowEnd (resolution lastT : Int) (p : Int × ℚ) : Int := min (currentWindow p.1 resolution) lastT

/-- What holds after `downsampleBatchLoop` has read the samples `pre`. -/
structure WindowsInv (r lastT : Int) (pre : List (Int × ℚ)) (nextT : Int) (a : FloatAggregator)
    (l : List (Int × FloatAggregator)) : Prop where
  state : a.counterState = run none (pre.map Prod.snd)
  total : a.total = pre.length
  sorted : (l.map Prod.fst).Pairwise (· < ·)
  before : ∀ p ∈ l, ∀ q ∈ pre.getLast?, p.1 < q.1
  closed : ∀ p ∈ l, p.2.counterState = run none ((pre.filter (·.1 ≤ p.1)).map Prod.snd)
  covers : ∀ q ∈ pre, windowEnd r lastT q ∈ l.map Prod.fst ∨ windowEnd r lastT q = nextT
  ends : ∀ p ∈ l, ∃ q ∈ pre, p.1 = windowEnd r lastT q
  current : ∀ q ∈ pre.getLast?, nextT = windowEnd r lastT q
  empty : pre = [] → nextT = -1 ∧ l = []
  within : ∀ q ∈ pre, q.1 ≤ nextT

theorem windowsInv_nil (r lastT : Int) : WindowsInv r lastT [] (-1) {} [] := by
  refine ⟨rfl, rfl, by simp, by simp, by simp, by simp, by simp, by simp, fun _ => ⟨rfl, rfl⟩, by simp⟩

theorem downsampleBatchLoop_cons (resolution lastT : Int) (add : Int → FloatAggregator → β → β)
    (x : Int × ℚ) (xs : List (Int × ℚ)) (nextT : Int) (a : FloatAggregator) (b : β) :
    downsampleBatchLoop resolution lastT add (x :: xs) nextT a b =
      let w := downsampleBatchLoop resolution lastT add [x] nextT a b
      downsampleBatchLoop resolution lastT add xs w.1 w.2.1 w.2.2 := by
  simp only [downsampleBatchLoop]
  split <;> rfl


theorem downsampleBatchLoop_single (resolution lastT : Int) (add : Int → FloatAggregator → β → β)
    (s : Int × ℚ) (nextT : Int) (a : FloatAggregator) (b : β) :
    downsampleBatchLoop resolution lastT add [s] nextT a b =
      if s.1 > nextT then
        (min (currentWindow s.1 resolution) lastT, a.reset.add s, if nextT ≠ -1 then add nextT a b else b)
      else (nextT, a.add s, b) := by
  simp only [downsampleBatchLoop]

theorem filter_append_gt {pre : List (Int × ℚ)} {s : Int × ℚ} {x : Int} (hx : x < s.1) :
    (pre ++ [s]).filter (fun q => decide (q.1 ≤ x)) = pre.filter (fun q => decide (q.1 ≤ x)) := by
  simp [List.filter_append, not_le.mpr hx]

theorem filter_eq_self_of_le {pre : List (Int × ℚ)} {x : Int} (h : ∀ q ∈ pre, q.1 ≤ x) :
    pre.filter (fun q => decide (q.1 ≤ x)) = pre :=
  List.filter_eq_self.mpr fun q hq => by simpa using h q hq

section
variable {r lastT : Int} (hr : 0 < r)
include hr

theorem windowEnd_nonneg {q : Int × ℚ} (hq : 0 ≤ q.1) (hl : q.1 ≤ lastT) : 0 ≤ windowEnd r lastT q :=
  le_min (currentWindow_nonneg hr hq) (le_trans hq hl)

theorem le_windowEnd {q : Int × ℚ} (hq : 0 ≤ q.1) (hl : q.1 ≤ lastT) : q.1 ≤ windowEnd r lastT q :=
  le_min (le_currentWindow hr hq) hl

/-- One sample keeps the invariant. -/
theorem WindowsInv.step {pre : List (Int × ℚ)} {nextT : Int} {a : FloatAggregator}
    {l : List (Int × FloatAggregator)} (h : WindowsInv r lastT pre nextT a l) {s : Int × ℚ}
    (hs0 : 0 ≤ s.1) (hsl : s.1 ≤ lastT) (hlt : ∀ q ∈ pre, q.1 < s.1) (hpre : ∀ q ∈ pre, 0 ≤ q.1 ∧ q.1 ≤ lastT) :
    let w := downsampleBatchLoop r lastT (fun t a l => l ++ [(t, a)]) [s] nextT a l
    WindowsInv r lastT (pre ++ [s]) w.1 w.2.1 w.2.2 := by
  have hstate : run none ((pre ++ [s]).map Prod.snd) = some (push a.counterState s.2) := by
    rw [List.map_append, run_append, ← h.state]; rfl
  have hwe : s.1 ≤ windowEnd r lastT s := le_windowEnd hr hs0 hsl
  simp only [downsampleBatchLoop_single]
  split
  · rename_i hgt
    rcases List.eq_nil_or_concat pre with hp | ⟨init, last, hp⟩
    · -- the first sample opens the first window
      subst hp
      obtain ⟨hn, hl⟩ := h.empty rfl
      subst hn hl
      refine ⟨by simpa using hstate.symm, by simp [h.total], by simp, by simp, by simp, ?_, by simp, by simp [windowEnd],
        by simp, ?_⟩
      · intro q hq; simp at hq; subst hq; right; rfl
      · intro q hq; simp at hq; subst hq; exact hwe
    · -- the sample opens a new window: the current one is closed
      have hlast : pre.getLast? = some last := by simp [hp]
      have hcur : nextT = windowEnd r lastT last := h.current last hlast
      have hlpre : last ∈ pre := by simp [hp]
      have hne : nextT ≠ -1 := by
        have := windowEnd_nonneg hr (hpre last hlpre).1 (hpre last hlpre).2
        omega
      simp only [hne, ne_eq, not_false_eq_true, if_true]
      refine ⟨by simpa using hstate.symm, by simp [h.total], ?_, ?_, ?_, ?_, ?_, by simp [windowEnd], by simp, ?_⟩
      · simp only [List.map_append, List.map_cons, List.map_nil]
        refine List.pairwise_append.mpr ⟨h.sorted, by simp, ?_⟩
        intro x hx y hy
        simp at hy; subst hy
        obtain ⟨p, hp', rfl⟩ := List.mem_map.mp hx
        exact lt_of_lt_of_le (h.before p hp' last hlast) (h.within last hlpre)
      · intro p hp' q hq
        simp at hq; subst hq
        rcases List.mem_append.mp hp' with hp' | hp'
        · exact lt_trans (h.before p hp' last hlast) (hlt last hlpre)
        · simp at hp'; subst hp'; exact hgt
      · intro p hp'
        rcases List.mem_append.mp hp' with hp' | hp'
        · rw [filter_append_gt (lt_trans (h.before p hp' last hlast) (hlt last hlpre))]
          exact h.closed p hp'
        · simp at hp'; subst hp'
          rw [filter_append_gt hgt, filter_eq_self_of_le h.within]
          exact h.state
      · intro q hq
        rcases List.mem_append.mp hq with hq | hq
        · rcases h.covers q hq with hc | hc
          · left; simp only [List.map_append, List.mem_append]; exact Or.inl hc
          · left; simp [hc]
        · simp at hq; subst hq; right; rfl
      · intro p hp'
        rcases List.mem_append.mp hp' with hp' | hp'
        · obtain ⟨q, hq, he⟩ := h.ends p hp'
          exact ⟨q, List.mem_append_left _ hq, he⟩
        · simp at hp'; subst hp'
          exact ⟨last, List.mem_append_left _ hlpre, hcur⟩
      · intro q hq
        rcases List.mem_append.mp hq with hq | hq
        · exact le_trans (le_of_lt (lt_of_le_of_lt (h.within q hq) hgt)) hwe
        · simp at hq; subst hq; exact hwe
  · -- the sample falls into the current window
    rename_i hle
    have hle : s.1 ≤ nextT := not_lt.mp hle
    rcases List.eq_nil_or_concat pre with hp | ⟨init, last, hp⟩
    · obtain ⟨hn, _⟩ := h.empty hp
      omega
    have hlast : pre.getLast? = some last := by simp [hp]
    have hlpre : last ∈ pre := by simp [hp]
    have hcur : nextT = windowEnd r lastT last := h.current last hlast
    have hsame : windowEnd r lastT s = nextT := by
      have h0 := (hpre last hlpre).1
      have hcw : s.1 ≤ currentWindow last.1 r := le_trans hle (hcur ▸ min_le_left _ _)
      rw [hcur, windowEnd, windowEnd, currentWindow_eq_of_le hr h0 (le_of_lt (hlt last hlpre)) hcw]
    refine ⟨by simpa using hstate.symm, by simp [h.total], h.sorted, ?_, ?_, ?_, ?_, by simp [hsame], by simp, ?_⟩
    · intro p hp' q hq
      simp at hq; subst hq
      exact lt_trans (h.before p hp' last hlast) (hlt last hlpre)
    · intro p hp'
      rw [filter_append_gt (lt_trans (h.before p hp' last hlast) (hlt last hlpre))]
      exact h.closed p hp'
    · intro q hq
      rcases List.mem_append.mp hq with hq | hq
      · exact h.covers q hq
      · simp at hq; subst hq; right; exact hsame
    · intro p hp'
      obtain ⟨q, hq, he⟩ := h.ends p hp'
      exact ⟨q, List.mem_append_left _ hq, he⟩
    · intro q hq
      rcases List.mem_append.mp hq with hq | hq
      · exact h.within q hq
      · simp at hq; subst hq; exact hle

theorem WindowsInv.loop {pre xs : List (Int × ℚ)} {nextT : Int} {a : FloatAggregator}
    {l : List (Int × FloatAggregator)} (h : WindowsInv r lastT pre nextT a l)
    (hsorted : (pre ++ xs).Pairwise (fun p q => p.1 < q.1))
    (hbounds : ∀ q ∈ pre ++ xs, 0 ≤ q.1 ∧ q.1 ≤ lastT) :
    let w := downsampleBatchLoop r lastT (fun t a l => l ++ [(t, a)]) xs nextT a l
    WindowsInv r lastT (pre ++ xs) w.1 w.2.1 w.2.2 := by
  induction xs generalizing pre nextT a l with
  | nil => simpa [downsampleBatchLoop] using h
  | cons x xs ih =>
    rw [downsampleBatchLoop_cons]
    have hx := hbounds x (by simp)
    have hlt : ∀ q ∈ pre, q.1 < x.1 := fun q hq =>
      (List.pairwise_append.mp hsorted).2.2 q hq x (by simp)
    have h1 := h.step hr hx.1 hx.2 hlt (fun q hq => hbounds q (List.mem_append_left _ hq))
    have := ih h1 (by simpa using hsorted) (by simpa using hbounds)
    simpa using this
end

/-- What the windows of a batch with last timestamp `lastT` look like. -/
structure WindowsSpec (r lastT : Int) (data : List (Int × ℚ)) (w : List (Int × FloatAggregator)) :
    Prop where
  sorted : (w.map Prod.fst).Pairwise (· < ·)
  last : (w.map Prod.fst).getLast? = some lastT
  state : ∀ p ∈ w, p.2.counterState = run none ((data.filter (·.1 ≤ p.1)).map Prod.snd)
  covers : ∀ q ∈ data, windowEnd r lastT q ∈ w.map Prod.fst
  ends : ∀ p ∈ w, ∃ q ∈ data, p.1 = windowEnd r lastT q

theorem le_getLast_of_sorted : ∀ {data : List (Int × ℚ)} (hne : data ≠ []),
    data.Pairwise (fun p q => p.1 < q.1) → ∀ q ∈ data, q.1 ≤ (data.getLast hne).1
  | [_], _, _, q, hq => by simp at hq; simp [hq]
  | x :: y :: ys, _, h, q, hq => by
    rw [List.getLast_cons_cons]
    rcases List.mem_cons.mp hq with rfl | hq
    · exact le_of_lt (List.rel_of_pairwise_cons h (List.getLast_mem _))
    · exact le_getLast_of_sorted (by simp) (List.Pairwise.of_cons h) q hq

section
variable {r : Int} (hr : 0 < r)
include hr

theorem windowEnd_getLast {data : List (Int × ℚ)} (hne : data ≠ []) (h0 : 0 ≤ (data.getLast hne).1) :
    windowEnd r (data.getLast hne).1 (data.getLast hne) = (data.getLast hne).1 :=
  min_eq_right (le_currentWindow hr h0)

/-- The loop's state after the whole batch. -/
theorem windowsInv_batch {data : List (Int × ℚ)} (hne : data ≠ [])
    (hsorted : data.Pairwise (fun p q => p.1 < q.1)) (hnn : ∀ q ∈ data, 0 ≤ q.1) :
    let w := downsampleBatchLoop r (data.getLast hne).1 (fun t a l => l ++ [(t, a)]) data (-1) {} []
    WindowsInv r (data.getLast hne).1 data w.1 w.2.1 w.2.2 :=
  (windowsInv_nil r _).loop hr (by simpa using hsorted)
    (fun q hq => ⟨hnn q (by simpa using hq), le_getLast_of_sorted hne hsorted q (by simpa using hq)⟩)

theorem batchWindows_spec {data : List (Int × ℚ)} (hne : data ≠ [])
    (hsorted : data.Pairwise (fun p q => p.1 < q.1)) (hnn : ∀ q ∈ data, 0 ≤ q.1) :
    WindowsSpec r (data.getLast hne).1 data (batchWindows data r {}) := by
  have hlastT : (data.getLast?.map Prod.fst).getD 0 = (data.getLast hne).1 := by
    simp [List.getLast?_eq_some_getLast hne]
  have h := windowsInv_batch hr hne hsorted hnn
  obtain ⟨init, last, hd⟩ := (List.eq_nil_or_concat data).resolve_left hne
  have hlast : data.getLast? = some (data.getLast hne) := List.getLast?_eq_some_getLast hne
  have hcur := h.current _ hlast
  rw [windowEnd_getLast hr hne (hnn _ (List.getLast_mem hne))] at hcur
  have hpos : 0 < (downsampleBatchLoop r (data.getLast hne).1 (fun t a l => l ++ [(t, a)]) data
      (-1) {} []).2.1.total := by
    rw [h.total]; exact List.length_pos_iff.mpr hne
  simp only [batchWindows, downsampleBatch, hlastT, hpos, if_true]
  generalize downsampleBatchLoop r (data.getLast hne).1 (fun t a l => l ++ [(t, a)]) data (-1) {} [] = w
    at h hcur hpos
  obtain ⟨nextT, a, l⟩ := w
  simp only at h hcur ⊢
  subst hcur
  refine ⟨?_, by simp, ?_, ?_, ?_⟩
  · simp only [List.map_append, List.map_cons, List.map_nil]
    refine List.pairwise_append.mpr ⟨h.sorted, by simp, ?_⟩
    intro x hx y hy
    simp at hy; subst hy
    obtain ⟨p, hp, rfl⟩ := List.mem_map.mp hx
    exact h.before p hp _ hlast
  · intro p hp
    rcases List.mem_append.mp hp with hp | hp
    · exact h.closed p hp
    · simp at hp; subst hp
      rw [filter_eq_self_of_le h.within]
      exact h.state
  · intro q hq
    rcases h.covers q hq with hc | hc
    · simp only [List.map_append, List.mem_append]; exact Or.inl hc
    · simp [hc]
  · intro p hp
    rcases List.mem_append.mp hp with hp | hp
    · exact h.ends p hp
    · simp at hp; subst hp
      exact ⟨_, List.getLast_mem hne, (windowEnd_getLast hr hne (hnn _ (List.getLast_mem hne))).symm⟩

/-- `downsampleBatch` returns the batch's last timestamp. -/
theorem downsampleBatch_fst {data : List (Int × ℚ)} (hne : data ≠ [])
    (hsorted : data.Pairwise (fun p q => p.1 < q.1)) (hnn : ∀ q ∈ data, 0 ≤ q.1)
    (add : Int → FloatAggregator → β → β) (b : β) :
    (downsampleBatch data r {} add b).1 = (data.getLast hne).1 := by
  have hlastT : (data.getLast?.map Prod.fst).getD 0 = (data.getLast hne).1 := by
    simp [List.getLast?_eq_some_getLast hne]
  have hcur := (windowsInv_batch hr hne hsorted hnn).current _ (List.getLast?_eq_some_getLast hne)
  rw [windowEnd_getLast hr hne (hnn _ (List.getLast_mem hne))] at hcur
  rw [downsampleBatch_eq_foldl]
  simp only [downsampleBatch, hlastT]
  exact hcur

end

end Thanos.Downsample
