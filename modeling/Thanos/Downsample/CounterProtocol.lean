import Thanos.Downsample.CounterResets
import Thanos.Downsample.Windows

/-! # The counter encoding protocol, from the reader's side

A counter sub-chunk of a downsampled chunk frames a segment of the raw
series: it starts with the segment's first raw sample, goes on with window
totals of the segment, and repeats the segment's last raw value at the last
window end (`frame`). This module proves what
`ApplyCounterResetsSeriesIterator` reads from a sequence of such chunks over
consecutive segments: every distinct timestamp of the chunks once, in
increasing order, each with the reset-corrected total of the whole raw series
up to it (`Reads`). The same holds of one raw chunk, sample by sample. -/

namespace Thanos.Downsample

open CounterTotal ApplyCounterResetsSeriesIterator

/-- The reset-corrected total of the samples of `pts` at or before `w`. -/
def counterAt (pts : List (Int × ℚ)) (w : Int) : Option ℚ :=
  total ((pts.filter (·.1 ≤ w)).map Prod.snd)

/-- The counter sub-chunk of a segment: its first sample, the window totals `ws`,
its last sample. -/
def frame (seg : List (Int × ℚ)) (ws : XorChunk) : XorChunk :=
  seg.take 1 ++ ws ++ seg.getLast?.toList

/-- Window totals of a non-empty segment: their ends strictly increase from the
segment's first timestamp to its last, each with the segment's total up to it. -/
structure WindowTotals (seg : List (Int × ℚ)) (ws : XorChunk) : Prop where
  nonempty : seg ≠ []
  sorted : (ws.map Prod.fst).Pairwise (· < ·)
  last : (ws.map Prod.fst).getLast? = seg.getLast?.map Prod.fst
  after : ∀ p ∈ ws, ∀ q ∈ seg.head?, q.1 ≤ p.1
  values : ∀ p ∈ ws, counterAt seg p.1 = some p.2

/-- What a reader of the chunks `cs` over the raw samples `pts` returns: the chunks'
timestamps, each once and in increasing order, with the totals of `pts`. -/
structure Reads (pts : List (Int × ℚ)) (cs : List XorChunk) (out : List (Int × ℚ)) : Prop where
  sorted : (out.map Prod.fst).Pairwise (· < ·)
  values : ∀ q ∈ out, counterAt pts q.1 = some q.2
  complete : ∀ c ∈ cs, ∀ p ∈ c, p.1 ∈ out.map Prod.fst
  sound : ∀ q ∈ out, ∃ c ∈ cs, ∃ p ∈ c, p.1 = q.1

/-- The counter state of the iterator: its last value and total once it has read a sample. -/
def ApplyCounterResetsSeriesIterator.counterState (it : ApplyCounterResetsSeriesIterator) :
    Option (ℚ × ℚ) :=
  if it.total = 0 then none else some (it.lastV, it.totalV)

theorem counterState_eq_some {it : ApplyCounterResetsSeriesIterator} {s : ℚ × ℚ} :
    it.counterState = some s ↔ it.total ≠ 0 ∧ (it.lastV, it.totalV) = s := by
  unfold counterState
  split <;> simp_all

theorem totalV_of_counterState {it : ApplyCounterResetsSeriesIterator} {s : ℚ × ℚ}
    (h : it.counterState = some s) : it.totalV = s.2 := by
  rw [← (counterState_eq_some.mp h).2]

theorem drain_append (it : ApplyCounterResetsSeriesIterator) (es₁ es₂ : List Event) :
    drain it (es₁ ++ es₂) = ((drain it es₁).1 ++ (drain (drain it es₁).2 es₂).1,
      (drain (drain it es₁).2 es₂).2) := by
  induction es₁ generalizing it with
  | nil => rfl
  | cons e es ih =>
    simp only [List.cons_append, drain, ih]
    split <;> simp

theorem events_cons (c : List Sample) (cs : List (List Sample)) :
    events (c :: cs) = c.map .sample ++ [.chunkEnd] ++ events cs := by
  simp [events]

/-! ## Reading samples with increasing timestamps -/

/-- A first sample, or one past the last timestamp, is emitted with the pushed
counter state, and reaches the caller once no pending target is above it. -/
theorem step_sample_emit {it : ApplyCounterResetsSeriesIterator} {t : Int} {v : ℚ}
    (ht : it.total ≠ 0 → it.lastT < t) :
    ∃ it', it.step (.sample ⟨t, some v⟩) = (it', (it.seeks.dropWhile (· ≤ t)).isEmpty) ∧
      it'.counterState = some (push it.counterState v) ∧ it'.lastT = t ∧
      it'.seeks = it.seeks.dropWhile (· ≤ t) := by
  by_cases h0 : it.total = 0
  · simp only [step, h0, if_true]
    exact ⟨_, rfl, by simp [counterState, h0, push], rfl, rfl⟩
  · have hlt := ht h0
    simp only [step, h0, if_false, gt_iff_lt, hlt, if_true]
    have hd : (if v ≥ it.lastV then v - it.lastV else v) = delta it.lastV v := rfl
    exact ⟨_, rfl, by simp [counterState, h0, push, hd], rfl, rfl⟩

theorem step_sample_none (it : ApplyCounterResetsSeriesIterator) (t : Int) :
    it.step (.sample ⟨t, none⟩) = (it, false) := rfl

theorem step_sample_eq {it : ApplyCounterResetsSeriesIterator} {v : ℚ} (h0 : it.total ≠ 0) :
    it.step (.sample ⟨it.lastT, some v⟩) = ({ it with lastV := v }, false) := by
  simp [step, h0]

/-- One raw chunk read sample by sample: every numeric sample is emitted with the
total up to it. -/
theorem drain_samples {it : ApplyCounterResetsSeriesIterator} (hseeks : it.seeks = [])
    {xs : List Sample} (hinc : (xs.map Sample.t).Pairwise (· < ·))
    (hafter : it.total ≠ 0 → ∀ s ∈ xs, it.lastT < s.t) :
    (drain it (xs.map .sample)).1.map Prod.fst = (numeric xs).map Prod.fst ∧
    (∀ q ∈ (drain it (xs.map .sample)).1, some q.2 =
      (run it.counterState (((numeric xs).filter (·.1 ≤ q.1)).map Prod.snd)).map Prod.snd) ∧
    (drain it (xs.map .sample)).2.counterState = run it.counterState ((numeric xs).map Prod.snd) ∧
    (drain it (xs.map .sample)).2.seeks = [] := by
  induction xs generalizing it with
  | nil => simp [drain, numeric, hseeks]
  | cons x xs ih =>
    obtain ⟨t, v⟩ := x
    have hxs : (xs.map Sample.t).Pairwise (· < ·) := (List.pairwise_cons.mp hinc).2
    have hgt : ∀ s ∈ xs, t < s.t := fun s hs =>
      (List.pairwise_cons.mp hinc).1 s.t (List.mem_map_of_mem hs)
    cases v with
    | none =>
      simp only [List.map_cons, drain, step_sample_none, Bool.false_eq_true, if_false]
      have hn : numeric (⟨t, none⟩ :: xs) = numeric xs := by simp [numeric]
      rw [hn]
      exact ih hseeks hxs fun h s hs => hafter h s (by simp [hs])
    | some v =>
      obtain ⟨it', hstep, hcs, hlast, hsk⟩ := step_sample_emit (v := v) fun h => hafter h ⟨t, some v⟩ (by simp)
      rw [hseeks] at hstep hsk
      simp only [List.dropWhile_nil, List.isEmpty_nil] at hstep hsk
      have hn : numeric (⟨t, some v⟩ :: xs) = (t, v) :: numeric xs := by simp [numeric]
      have hnum : ∀ q ∈ numeric xs, t < q.1 := by
        intro q hq
        obtain ⟨s, hs, hsq⟩ := List.mem_filterMap.mp hq
        cases hv : s.v with
        | none => simp [hv] at hsq
        | some w => simp [hv] at hsq; rw [← hsq]; exact hgt s hs
      obtain ⟨h1, h2, h3, h4⟩ := ih hsk hxs fun _ s hs => hlast ▸ hgt s hs
      simp only [List.map_cons, drain, hstep, if_true, hn]
      refine ⟨by simp [h1, hlast], ?_, ?_, h4⟩
      · intro q hq
        rcases List.mem_cons.mp hq with rfl | hq
        · have : (numeric xs).filter (fun p => decide (p.1 ≤ t)) = [] :=
            List.filter_eq_nil_iff.mpr fun p hp => by simpa using hnum p hp
          simp [this, hlast, totalV_of_counterState hcs]
        · have hq1 : t < q.1 := by
            have : q.1 ∈ (numeric xs).map Prod.fst := h1 ▸ List.mem_map_of_mem hq
            obtain ⟨p, hp, hpq⟩ := List.mem_map.mp this
            rw [← hpq]; exact hnum p hp
          rw [h2 q hq, hcs]
          simp [le_of_lt hq1]
      · rw [h3, hcs]; rfl

/-- Samples past the last timestamp whose values never drop are all emitted, each
with the total grown by its increase over the last value; the state ends at the
last of them. -/
theorem drain_rising {it : ApplyCounterResetsSeriesIterator} (hseeks : it.seeks = [])
    (h0 : it.total ≠ 0) {ws : List (Int × ℚ)} (ht : ∀ p ∈ ws, it.lastT < p.1)
    (hs : ws.Pairwise (fun p q => p.1 < q.1)) (hv : (it.lastV :: ws.map Prod.snd).Pairwise (· ≤ ·)) :
    let q := ws.getLast?.getD (it.lastT, it.lastV)
    (drain it ((XorChunk.samples ws).map .sample)).1 =
      ws.map (fun p => (p.1, it.totalV + (p.2 - it.lastV))) ∧
    (drain it ((XorChunk.samples ws).map .sample)).2.counterState =
      some (q.2, it.totalV + (q.2 - it.lastV)) ∧
    (drain it ((XorChunk.samples ws).map .sample)).2.lastT = q.1 ∧
    (drain it ((XorChunk.samples ws).map .sample)).2.seeks = [] := by
  induction ws generalizing it with
  | nil => simp [drain, XorChunk.samples, hseeks, counterState_eq_some, h0]
  | cons p ps ih =>
    have hle : it.lastV ≤ p.2 := List.rel_of_pairwise_cons hv (by simp)
    obtain ⟨it', hstep, hcs, hlast, hsk⟩ :=
      step_sample_emit (v := p.2) fun _ => ht p (by simp)
    rw [hseeks] at hstep hsk
    simp only [List.dropWhile_nil, List.isEmpty_nil] at hstep hsk
    have hcs0 : it.counterState = some (it.lastV, it.totalV) := counterState_eq_some.mpr ⟨h0, rfl⟩
    rw [hcs0] at hcs
    obtain ⟨h0', hlv⟩ := counterState_eq_some.mp hcs
    simp only [push, delta_of_le hle, Prod.mk.injEq] at hlv
    obtain ⟨hv', htv⟩ := hlv
    have hps : ∀ q ∈ ps, it'.lastT < q.1 := fun q hq => hlast ▸ List.rel_of_pairwise_cons hs hq
    obtain ⟨h1, h2, h3, h4⟩ := ih hsk h0' hps (List.Pairwise.of_cons hs)
      (by rw [hv']; simpa using List.Pairwise.of_cons hv)
    have hq : ps.getLast?.getD (it'.lastT, it'.lastV) = (p :: ps).getLast?.getD (it.lastT, it.lastV) := by
      simp [List.getLast?_cons, hlast, hv']
    rw [hq] at h2 h3
    simp only [XorChunk.samples, List.map_cons, List.map_map, drain, hstep, if_true] at h1 h2 h3 h4 ⊢
    refine ⟨?_, ?_, h3, h4⟩
    · rw [h1, hlast, htv, hv']
      simp only [List.cons.injEq, Prod.mk.injEq, List.map_inj_left, true_and]
      intro q _
      abel
    · rw [h2, htv, hv']
      congr 2
      abel

/-- A window total at the timestamp just emitted repeats its value: reading it
changes nothing. -/
theorem drain_filter_lastT {it : ApplyCounterResetsSeriesIterator} (h0 : it.total ≠ 0)
    {ws : List (Int × ℚ)} (hs : ws.Pairwise (fun p q => p.1 < q.1)) (hge : ∀ p ∈ ws, it.lastT ≤ p.1)
    (heq : ∀ p ∈ ws, p.1 = it.lastT → p.2 = it.lastV) :
    drain it ((XorChunk.samples ws).map .sample) =
      drain it ((XorChunk.samples (ws.filter (it.lastT < ·.1))).map .sample) := by
  cases ws with
  | nil => rfl
  | cons p ps =>
    have hps : ∀ q ∈ ps, it.lastT < q.1 := fun q hq =>
      lt_of_le_of_lt (hge p (by simp)) (List.rel_of_pairwise_cons hs hq)
    have hf : ps.filter (it.lastT < ·.1) = ps :=
      List.filter_eq_self.mpr fun q hq => by simpa using hps q hq
    by_cases hp : p.1 = it.lastT
    · have hv := heq p (by simp) hp
      obtain ⟨t, v⟩ := p
      simp only at hp hv
      subst hp hv
      simp [XorChunk.samples, drain, step_sample_eq h0, hf]
    · have hlt : it.lastT < p.1 := lt_of_le_of_ne (hge p (by simp)) (Ne.symm hp)
      simp [hlt, hf]

/-- The last window total past `a`, or the first sample at `a` when there is none, sits at
the last window end. -/
theorem filter_lt_getLast {ws : List (Int × ℚ)} {a b : Int} {u : ℚ}
    (hs : ws.Pairwise (fun p q => p.1 < q.1)) (hge : ∀ p ∈ ws, a ≤ p.1)
    (hlast : (ws.map Prod.fst).getLast? = some b) :
    ((ws.filter (a < ·.1)).getLast?.getD (a, u)).1 = b := by
  cases ws with
  | nil => simp at hlast
  | cons p ps =>
    have hps : ∀ q ∈ ps, a < q.1 := fun q hq =>
      lt_of_le_of_lt (hge p (by simp)) (List.rel_of_pairwise_cons hs hq)
    have hf : ps.filter (a < ·.1) = ps :=
      List.filter_eq_self.mpr fun q hq => by simpa using hps q hq
    have hpa := hge p (by simp)
    simp only [List.map_cons, List.getLast?_cons, List.getLast?_map] at hlast
    by_cases hp : a < p.1
    · rw [List.filter_cons_of_pos (by simpa using hp), hf, List.getLast?_cons]
      rcases h : ps.getLast? with _ | q <;> simpa [h] using hlast
    · have hpa' : p.1 = a := le_antisymm (not_lt.mp hp) hpa
      rw [List.filter_cons_of_neg (by simpa using hp), hf]
      rcases h : ps.getLast? with _ | q
      · simp only [h, Option.map_none, Option.getD_none, Option.some.injEq] at hlast
        simp [← hlast, hpa']
      · simpa [h] using hlast

/-! ## Reading framed chunks -/

theorem filter_le_eq_nil {l : List (Int × ℚ)} {e : Int} (h : ∀ q ∈ l, e < q.1) :
    l.filter (·.1 ≤ e) = [] :=
  List.filter_eq_nil_iff.mpr fun q hq => by simpa using h q hq

/-- Over non-negative values, the total up to a point only grows with the point. -/
theorem run_filter_mono {l : List (Int × ℚ)} (hl : l.Pairwise (fun p q => p.1 < q.1))
    (hnn : ∀ p ∈ l, 0 ≤ p.2) {e e' : Int} (he : e ≤ e') {S : Option (ℚ × ℚ)} {x y : ℚ}
    (hx : (run S ((l.filter (·.1 ≤ e)).map Prod.snd)).map Prod.snd = some x)
    (hy : (run S ((l.filter (·.1 ≤ e')).map Prod.snd)).map Prod.snd = some y) : x ≤ y := by
  induction l generalizing S with
  | nil =>
    simp only [List.filter_nil, List.map_nil, run_nil] at hx hy
    rw [hx, Option.some.injEq] at hy
    exact le_of_eq hy
  | cons p ps ih =>
    by_cases hp : p.1 ≤ e
    · have hp' : p.1 ≤ e' := le_trans hp he
      simp only [List.filter_cons, hp, hp', decide_true, if_true, List.map_cons, run_cons] at hx hy
      exact ih (List.Pairwise.of_cons hl) (fun q hq => hnn q (by simp [hq])) hx hy
    · have hgt : ∀ q ∈ p :: ps, e < q.1 := by
        intro q hq
        rcases List.mem_cons.mp hq with rfl | hq
        · exact lt_of_not_ge hp
        · exact lt_trans (lt_of_not_ge hp) (List.rel_of_pairwise_cons hl hq)
      rw [filter_le_eq_nil hgt] at hx
      obtain ⟨s, rfl⟩ : ∃ s, S = some s := by cases S <;> simp_all
      simp only [List.map_nil, run_nil, Option.map_some, Option.some.injEq] at hx
      obtain ⟨s', hs'⟩ := run_some s ((((p :: ps).filter (·.1 ≤ e')).map Prod.snd))
      rw [hs', Option.map_some, Option.some.injEq] at hy
      rw [← hx, ← hy]
      exact le_run_total (fun v hv => by
        obtain ⟨q, hq, rfl⟩ := List.mem_map.mp hv
        exact hnn q (List.mem_filter.mp hq).1) hs'

/-- The total of the raw samples before a segment and of the segment up to `e`: the
segment's own total, shifted by what the samples before it had. -/
theorem counterAt_append_cons {pre rest : List (Int × ℚ)} {a e : Int} {u : ℚ}
    (hpre : ∀ q ∈ pre, q.1 < a) (he : a ≤ e) :
    counterAt (pre ++ (a, u) :: rest) e =
      (counterAt ((a, u) :: rest) e).map (· + ((push (run none (pre.map Prod.snd)) u).2 - u)) := by
  have hpre' : pre.filter (·.1 ≤ e) = pre :=
    filter_eq_self_of_le fun q hq => le_of_lt (lt_of_lt_of_le (hpre q hq) he)
  unfold counterAt CounterTotal.total
  rw [List.filter_append, hpre']
  simp only [List.filter_cons, he, decide_true, if_true, List.map_append, List.map_cons, run_append]
  rw [run_cons_shift, Option.map_map, Option.map_map]
  rfl

/-- The iterator has read the raw samples `pre` through framed chunks and returned:
it holds their counter state, and the `Seek` past their last timestamp is pending. -/
structure Follows (pre : List (Int × ℚ)) (it : ApplyCounterResetsSeriesIterator) : Prop where
  state : it.counterState = run none (pre.map Prod.snd)
  lastT : ∀ q ∈ pre.getLast?, it.lastT = q.1
  seeks : it.seeks = (pre.getLast?.map (·.1 + 1)).toList

theorem follows_nil : Follows [] {} := ⟨rfl, by simp, rfl⟩

/-- The first sample of the next segment is emitted, and the pending `Seek` returns. -/
theorem Follows.first {pre : List (Int × ℚ)} {it : ApplyCounterResetsSeriesIterator}
    (h : Follows pre it) {a : Int} (u : ℚ) (hpre : ∀ q ∈ pre, q.1 < a) :
    ∃ it', it.step (.sample ⟨a, some u⟩) = (it', true) ∧
      it'.counterState = some (push (run none (pre.map Prod.snd)) u) ∧ it'.lastT = a ∧
      it'.seeks = [] := by
  have hafter : it.total ≠ 0 → it.lastT < a := by
    intro h0
    cases hp : pre.getLast? with
    | none =>
      have hs := h.state
      rw [List.getLast?_eq_none_iff.mp hp] at hs
      simp [counterState, h0] at hs
    | some q =>
      rw [h.lastT q hp]
      exact hpre q (List.mem_of_getLast? hp)
  have hdrop : it.seeks.dropWhile (· ≤ a) = [] := by
    rw [h.seeks]
    cases hp : pre.getLast? with
    | none => rfl
    | some q =>
      have := hpre q (List.mem_of_getLast? hp)
      simp only [Option.map_some, Option.toList_some, List.dropWhile_cons, List.dropWhile_nil]
      simp [show q.1 + 1 ≤ a by omega]
  obtain ⟨it', hstep, hcs, hlast, hsk⟩ := step_sample_emit (v := u) hafter
  rw [hdrop] at hstep hsk
  exact ⟨it', hstep, by rw [hcs, h.state], hlast, hsk⟩

/-- The repeated last sample of a chunk, then the end of the chunk: the true last value
is kept and `Seek` past it is entered. -/
theorem drain_last_end {it : ApplyCounterResetsSeriesIterator} (h0 : it.total ≠ 0) (v : ℚ) :
    drain it [.sample ⟨it.lastT, some v⟩, .chunkEnd] =
      ([], { it with lastV := v, seeks := (it.lastT + 1) :: it.seeks }) := by
  simp [drain, step, h0]

theorem counterAt_head {a : Int} {u : ℚ} {rest : List (Int × ℚ)} (hrest : ∀ q ∈ rest, a < q.1) :
    counterAt ((a, u) :: rest) a = some u := by
  simp [counterAt, filter_le_eq_nil hrest, CounterTotal.total]

theorem counterAt_getLast {seg : List (Int × ℚ)} (hne : seg ≠ [])
    (hs : seg.Pairwise (fun p q => p.1 < q.1)) :
    counterAt seg (seg.getLast hne).1 = total (seg.map Prod.snd) := by
  unfold counterAt
  rw [filter_eq_self_of_le (le_getLast_of_sorted hne hs)]

theorem getLast?_getD_mem {α : Type*} (l : List α) (d : α) : l.getLast?.getD d ∈ d :: l := by
  cases h : l.getLast? with
  | none => simp
  | some x => simp [List.mem_of_getLast? h]

/-- One framed chunk read after the segments `pre`: the first sample and the window
totals past it are emitted with the totals of the whole series, and the iterator
returns having read the segment. -/
theorem Follows.drain_frame {pre rest ws : List (Int × ℚ)} {a : Int} {u : ℚ}
    {it : ApplyCounterResetsSeriesIterator} (h : Follows pre it)
    (hw : WindowTotals ((a, u) :: rest) ws) (hpre : ∀ q ∈ pre, q.1 < a)
    (hseg : ((a, u) :: rest).Pairwise (fun p q => p.1 < q.1)) (hnn : ∀ p ∈ (a, u) :: rest, 0 ≤ p.2) :
    let r := drain it ((XorChunk.samples (frame ((a, u) :: rest) ws)).map .sample ++ [.chunkEnd])
    r.1.map Prod.fst = a :: (ws.filter (a < ·.1)).map Prod.fst ∧
    (∀ q ∈ r.1, counterAt (pre ++ (a, u) :: rest) q.1 = some q.2) ∧
    Follows (pre ++ (a, u) :: rest) r.2 := by
  intro r
  have hne : (a, u) :: rest ≠ [] := List.cons_ne_nil _ _
  set last := ((a, u) :: rest).getLast hne with hlast_def
  have hrest : ∀ q ∈ rest, a < q.1 := fun q hq => List.rel_of_pairwise_cons hseg hq
  have hws : ws.Pairwise (fun p q => p.1 < q.1) := List.pairwise_map.mp hw.sorted
  have hge : ∀ p ∈ ws, a ≤ p.1 := fun p hp => hw.after p hp (a, u) rfl
  set ws' := ws.filter (a < ·.1) with hws'_def
  have hws'a : ∀ p ∈ ws', a < p.1 := fun p hp => by simpa using (List.mem_filter.mp hp).2
  -- the first sample and every window total carry the segment's own total
  have hval : ∀ p ∈ (a, u) :: ws', counterAt ((a, u) :: rest) p.1 = some p.2 := by
    intro p hp
    rcases List.mem_cons.mp hp with rfl | hp
    · exact counterAt_head hrest
    · exact hw.values p (List.mem_filter.mp hp).1
  have hmono : (u :: ws'.map Prod.snd).Pairwise (· ≤ ·) := by
    have hsort : ((a, u) :: ws').Pairwise (fun p q => p.1 < q.1) :=
      List.pairwise_cons.mpr ⟨hws'a, hws.filter _⟩
    have h' : ((a, u) :: ws').Pairwise (fun p q => p.2 ≤ q.2) :=
      hsort.imp_of_mem fun hp hq hpq => by
        have hx := hval _ hp
        have hy := hval _ hq
        unfold counterAt CounterTotal.total at hx hy
        exact run_filter_mono hseg hnn (le_of_lt hpq) hx hy
    have hmap : u :: ws'.map Prod.snd = ((a, u) :: ws').map Prod.snd := rfl
    rw [hmap, List.pairwise_map]
    exact h'
  obtain ⟨it1, hstep1, hcs1, hlast1, hsk1⟩ := h.first u hpre
  obtain ⟨Y, hY⟩ : ∃ Y, push (run none (pre.map Prod.snd)) u = (u, Y) :=
    ⟨(push (run none (pre.map Prod.snd)) u).2, by ext <;> simp⟩
  rw [hY] at hcs1
  obtain ⟨h01, hlv1⟩ := counterState_eq_some.mp hcs1
  simp only [Prod.mk.injEq] at hlv1
  obtain ⟨hv1, htv1⟩ := hlv1
  -- the window totals: one at `a` repeats the first sample, the others are emitted
  have hdup := drain_filter_lastT h01 hws (by rw [hlast1]; exact hge)
    (fun p hp hpa => by
      rw [hlast1] at hpa
      have := hw.values p hp
      rw [hpa, counterAt_head hrest, Option.some.injEq] at this
      rw [hv1, this])
  rw [hlast1, ← hws'_def] at hdup
  obtain ⟨h2a, h2b, h2c, h2d⟩ := @drain_rising it1 hsk1 h01 ws'
    (fun p hp => hlast1 ▸ hws'a p hp) (hws.filter _) (by rw [hv1]; exact hmono)
  simp only [hlast1, hv1, htv1] at h2a h2b h2c
  set it2 := (drain it1 ((XorChunk.samples ws').map .sample)).2 with hit2
  set q := ws'.getLast?.getD (a, u) with hq_def
  have hb : q.1 = last.1 :=
    filter_lt_getLast hws hge (by rw [hw.last, List.getLast?_eq_some_getLast hne]; rfl)
  obtain ⟨h02, htv2⟩ := counterState_eq_some.mp h2b
  simp only [Prod.mk.injEq] at htv2
  have hframe : (XorChunk.samples (frame ((a, u) :: rest) ws)).map Event.sample ++ [Event.chunkEnd] =
      [Event.sample ⟨a, some u⟩] ++ (XorChunk.samples ws).map Event.sample ++
        [Event.sample ⟨it2.lastT, some last.2⟩, Event.chunkEnd] := by
    rw [h2c, hb]
    simp [frame, XorChunk.samples, List.getLast?_eq_some_getLast hne, hlast_def]
  have hr : r = ((a, Y) :: ws'.map (fun p => (p.1, Y + (p.2 - u))),
      { it2 with lastV := last.2, seeks := (it2.lastT + 1) :: it2.seeks }) := by
    have hfirst : drain it [Event.sample ⟨a, some u⟩] = ([(a, Y)], it1) := by
      simp [drain, hstep1, hlast1, htv1]
    rw [show r = drain it _ from rfl, hframe, drain_append, drain_append]
    simp only [hfirst, hdup, ← hit2, drain_last_end h02, h2a]
    simp
  rw [hr]
  refine ⟨by simp, ?_, ?_⟩
  · intro p hp
    rcases List.mem_cons.mp hp with rfl | hp
    · rw [counterAt_append_cons hpre le_rfl, counterAt_head hrest, hY]
      simp
    · obtain ⟨w, hw', rfl⟩ := List.mem_map.mp hp
      rw [counterAt_append_cons hpre (le_of_lt (hws'a w hw')), hval w (by simp [hw']), hY]
      simp only [Option.map_some, Option.some.injEq]
      abel
  · have hT : counterAt ((a, u) :: rest) last.1 = some q.2 :=
      hb ▸ hval q (getLast?_getD_mem ws' (a, u))
    rw [counterAt_getLast hne hseg] at hT
    obtain ⟨s, hs⟩ := run_some (u, u) (rest.map Prod.snd)
    have hs1 : s.1 = last.2 := by
      have := run_fst none (((a, u) :: rest).map Prod.snd) last.2
        (by rw [List.getLast?_map, List.getLast?_eq_some_getLast hne]; rfl)
      simpa [hs] using this
    have hs2 : s.2 = q.2 := by simpa [CounterTotal.total, hs] using hT
    have hlastp : (pre ++ (a, u) :: rest).getLast? = some last := by
      simp [List.getLast?_append, List.getLast?_eq_some_getLast hne, hlast_def]
    refine ⟨?_, ?_, ?_⟩
    · have hstate : run none ((pre ++ (a, u) :: rest).map Prod.snd) = some (last.2, q.2 + (Y - u)) := by
        rw [List.map_append, run_append, List.map_cons, run_cons_shift, hY]
        simp [hs, hs1, hs2]
      rw [hstate, counterState_eq_some]
      refine ⟨h02, ?_⟩
      simp only [Prod.mk.injEq, true_and]
      rw [htv2.2]
      abel
    · intro p hp
      rw [hlastp, Option.mem_def, Option.some.injEq] at hp
      rw [← hp, h2c, hb]
    · rw [hlastp, h2d, h2c, hb]
      rfl

/-- The timestamps a framed chunk is read at: its first one, then the window ends past
it. They increase, lie within the segment, and are exactly the chunk's timestamps. -/
theorem WindowTotals.frame_times {a : Int} {u : ℚ} {rest ws : List (Int × ℚ)}
    (hw : WindowTotals ((a, u) :: rest) ws) (hseg : ((a, u) :: rest).Pairwise (fun p q => p.1 < q.1)) :
    let ts := a :: (ws.filter (a < ·.1)).map Prod.fst
    ts.Pairwise (· < ·) ∧
    (∀ t ∈ ts, a ≤ t ∧ t ≤ (((a, u) :: rest).getLast (List.cons_ne_nil _ _)).1) ∧
    (∀ p ∈ frame ((a, u) :: rest) ws, p.1 ∈ ts) ∧
    (∀ t ∈ ts, ∃ p ∈ frame ((a, u) :: rest) ws, p.1 = t) := by
  intro ts
  have hne : (a, u) :: rest ≠ [] := List.cons_ne_nil _ _
  have hws : ws.Pairwise (fun p q => p.1 < q.1) := List.pairwise_map.mp hw.sorted
  have hge : ∀ p ∈ ws, a ≤ p.1 := fun p hp => hw.after p hp (a, u) rfl
  have hwne : ws ≠ [] := by
    intro h
    have := hw.last
    simp [h] at this
  -- the last window ends at the segment's last timestamp
  have hwlast : (ws.getLast hwne).1 = (((a, u) :: rest).getLast hne).1 := by
    have := hw.last
    rw [List.getLast?_map, List.getLast?_eq_some_getLast hwne, List.getLast?_eq_some_getLast hne]
      at this
    simpa using this
  have hle : ∀ p ∈ ws, p.1 ≤ (((a, u) :: rest).getLast hne).1 := fun p hp =>
    hwlast ▸ le_getLast_of_sorted hwne hws p hp
  have hmem : ∀ p ∈ ws, p.1 ∈ ts := by
    intro p hp
    rcases eq_or_lt_of_le (hge p hp) with h | h
    · simp [ts, h]
    · exact List.mem_cons_of_mem _ (List.mem_map_of_mem (List.mem_filter.mpr ⟨hp, by simpa using h⟩))
  have hframe : frame ((a, u) :: rest) ws = (a, u) :: ws ++ [((a, u) :: rest).getLast hne] := by
    simp [frame, List.getLast?_eq_some_getLast hne]
  refine ⟨?_, ?_, ?_, ?_⟩
  · refine List.pairwise_cons.mpr ⟨?_, ?_⟩
    · intro t ht
      obtain ⟨p, hp, rfl⟩ := List.mem_map.mp ht
      simpa using (List.mem_filter.mp hp).2
    · exact List.pairwise_map.mpr (hws.filter _)
  · intro t ht
    rcases List.mem_cons.mp ht with rfl | ht
    · exact ⟨le_rfl, le_getLast_of_sorted hne hseg (t, u) (by simp)⟩
    · obtain ⟨p, hp, rfl⟩ := List.mem_map.mp ht
      have hp' := (List.mem_filter.mp hp).1
      exact ⟨hge p hp', hle p hp'⟩
  · intro p hp
    rw [hframe] at hp
    simp only [List.cons_append, List.mem_cons, List.mem_append, List.not_mem_nil, or_false] at hp
    rcases hp with rfl | hp | hp
    · simp [ts]
    · exact hmem p hp
    · rw [hp, ← hwlast]
      exact hmem _ (List.getLast_mem hwne)
  · intro t ht
    rw [hframe]
    rcases List.mem_cons.mp ht with rfl | ht
    · exact ⟨(t, u), by simp, rfl⟩
    · obtain ⟨p, hp, rfl⟩ := List.mem_map.mp ht
      exact ⟨p, by simp [(List.mem_filter.mp hp).1], rfl⟩

theorem counterAt_append_of_lt {xs ys : List (Int × ℚ)} {e : Int} (h : ∀ p ∈ ys, e < p.1) :
    counterAt (xs ++ ys) e = counterAt xs e := by
  unfold counterAt
  rw [List.filter_append, filter_le_eq_nil h, List.append_nil]

/-- Framed chunks over consecutive segments, read after the segments `pre`: `Reads`
over the whole series, all past `pre`, and the iterator returns having read them all. -/
theorem Follows.drain_frames {pre : List (Int × ℚ)} {it : ApplyCounterResetsSeriesIterator}
    (h : Follows pre it) {segs : List (List (Int × ℚ))} {wss : List XorChunk}
    (hw : List.Forall₂ WindowTotals segs wss)
    (hsorted : (pre ++ segs.flatten).Pairwise (fun p q => p.1 < q.1))
    (hnn : ∀ p ∈ segs.flatten, 0 ≤ p.2) :
    let r := drain it (events ((List.zipWith frame segs wss).map XorChunk.samples))
    Reads (pre ++ segs.flatten) (List.zipWith frame segs wss) r.1 ∧
    (∀ q ∈ r.1, ∀ p ∈ pre, p.1 < q.1) ∧ Follows (pre ++ segs.flatten) r.2 := by
  induction hw generalizing pre it with
  | nil =>
    simp only [List.zipWith_nil_left, List.map_nil, List.flatten_nil, List.append_nil]
    exact ⟨⟨by simp [events, drain], by simp [events, drain], by simp, by simp [events, drain]⟩,
      by simp [events, drain], by simpa [events, drain] using h⟩
  | @cons seg ws segs wss hsw _ ih =>
    obtain ⟨⟨a, u⟩, rest, rfl⟩ := List.exists_cons_of_ne_nil hsw.nonempty
    intro r
    simp only [List.flatten_cons] at hsorted hnn
    have hsorted' : ((pre ++ (a, u) :: rest) ++ segs.flatten).Pairwise (fun p q => p.1 < q.1) := by
      simpa using hsorted
    have hpre : ∀ q ∈ pre, q.1 < a := fun q hq =>
      (List.pairwise_append.mp hsorted).2.2 q hq (a, u) (by simp)
    have hseg : ((a, u) :: rest).Pairwise (fun p q => p.1 < q.1) :=
      (List.pairwise_append.mp (List.pairwise_append.mp hsorted).2.1).1
    have hlater : ∀ p ∈ (a, u) :: rest, ∀ q ∈ segs.flatten, p.1 < q.1 :=
      (List.pairwise_append.mp (List.pairwise_append.mp hsorted).2.1).2.2
    obtain ⟨h1t, h1v, h1f⟩ := h.drain_frame hsw hpre hseg fun p hp => hnn p (List.mem_append_left _ hp)
    obtain ⟨hts, hbound, hcomplete, hsound⟩ := hsw.frame_times hseg
    set r₁ := drain it ((XorChunk.samples (frame ((a, u) :: rest) ws)).map .sample ++ [.chunkEnd])
    obtain ⟨hR, hafter, hF⟩ := ih h1f hsorted' fun p hp => hnn p (List.mem_append_right _ hp)
    have hr : r = (r₁.1 ++ (drain r₁.2 (events ((List.zipWith frame segs wss).map XorChunk.samples))).1,
        (drain r₁.2 (events ((List.zipWith frame segs wss).map XorChunk.samples))).2) := by
      simp only [r, r₁, List.zipWith_cons_cons, List.map_cons, events_cons, drain_append]
    set r₂ := drain r₁.2 (events ((List.zipWith frame segs wss).map XorChunk.samples))
    -- every timestamp read from this chunk lies in the segment
    have hin : ∀ q ∈ r₁.1, a ≤ q.1 ∧ q.1 ≤ (((a, u) :: rest).getLast (List.cons_ne_nil _ _)).1 :=
      fun q hq => hbound q.1 (h1t ▸ List.mem_map_of_mem hq)
    have hlast_mem : ((a, u) :: rest).getLast (List.cons_ne_nil _ _) ∈ pre ++ (a, u) :: rest :=
      List.mem_append_right _ (List.getLast_mem _)
    rw [hr]
    simp only [List.flatten_cons, List.zipWith_cons_cons]
    refine ⟨⟨?_, ?_, ?_, ?_⟩, ?_, by simpa using hF⟩
    · rw [List.map_append]
      refine List.pairwise_append.mpr ⟨h1t ▸ hts, hR.sorted, ?_⟩
      intro x hx y hy
      obtain ⟨q, hq, rfl⟩ := List.mem_map.mp hx
      obtain ⟨q', hq', rfl⟩ := List.mem_map.mp hy
      exact lt_of_le_of_lt (hin q hq).2 (hafter q' hq' _ hlast_mem)
    · intro q hq
      rcases List.mem_append.mp hq with hq | hq
      · rw [← List.append_assoc, counterAt_append_of_lt fun p hp =>
          lt_of_le_of_lt (hin q hq).2 (hlater _ (List.getLast_mem _) p hp)]
        exact h1v q hq
      · simpa using hR.values q hq
    · intro c hc p hp
      rw [List.map_append]
      rcases List.mem_cons.mp hc with rfl | hc
      · exact List.mem_append_left _ (h1t ▸ hcomplete p hp)
      · exact List.mem_append_right _ (hR.complete c hc p hp)
    · intro q hq
      rcases List.mem_append.mp hq with hq | hq
      · obtain ⟨p, hp, hpq⟩ := hsound q.1 (h1t ▸ List.mem_map_of_mem hq)
        exact ⟨_, List.mem_cons_self, p, hp, hpq⟩
      · obtain ⟨c, hc, p, hp, hpq⟩ := hR.sound q hq
        exact ⟨c, List.mem_cons_of_mem _ hc, p, hp, hpq⟩
    · intro q hq p hp
      rcases List.mem_append.mp hq with hq | hq
      · exact lt_of_lt_of_le (hpre p hp) (hin q hq).1
      · exact hafter q hq p (List.mem_append_left _ hp)

/-- `NewApplyCounterResetsIterator` over framed chunks of consecutive segments. -/
theorem applyCounterResets_frames {segs : List (List (Int × ℚ))} {wss : List XorChunk}
    (hw : List.Forall₂ WindowTotals segs wss)
    (hsorted : segs.flatten.Pairwise (fun p q => p.1 < q.1)) (hnn : ∀ p ∈ segs.flatten, 0 ≤ p.2) :
    Reads segs.flatten (List.zipWith frame segs wss)
      (applyCounterResets ((List.zipWith frame segs wss).map XorChunk.samples)).1 ∧
    (applyCounterResets ((List.zipWith frame segs wss).map XorChunk.samples)).2.counterState =
      run none (segs.flatten.map Prod.snd) := by
  obtain ⟨hR, -, hF⟩ := follows_nil.drain_frames hw (by simpa using hsorted) hnn
  simp only [List.nil_append] at hR hF
  exact ⟨hR, hF.state⟩

/-- The raw series as one chunk through the iterator: its numeric samples' timestamps,
each with the total up to it. -/
theorem applyCounterResets_raw {data : List Sample} (hinc : (data.map Sample.t).Pairwise (· < ·)) :
    (applyCounterResets [data]).1.map Prod.fst = (numeric data).map Prod.fst ∧
    ∀ q ∈ (applyCounterResets [data]).1, counterAt (numeric data) q.1 = some q.2 := by
  have h : (applyCounterResets [data]).1 = (drain {} (data.map .sample)).1 := by
    simp [applyCounterResets, events, drain_append, drain, step]
  obtain ⟨h1, h2, -, -⟩ := @drain_samples {} rfl data hinc (by simp)
  rw [h]
  exact ⟨h1, fun q hq => (h2 q hq).symm⟩

theorem numeric_sorted {data : List Sample} (hinc : (data.map Sample.t).Pairwise (· < ·)) :
    (numeric data).Pairwise (fun p q => p.1 < q.1) := by
  unfold numeric
  rw [List.pairwise_filterMap]
  refine (List.pairwise_map.mp hinc).imp ?_
  intro s s' h p hp p' hp'
  obtain ⟨v, -, rfl⟩ := Option.mem_map.mp hp
  obtain ⟨v', -, rfl⟩ := Option.mem_map.mp hp'
  exact h

theorem mem_numeric {data : List Sample} {p : Int × ℚ} :
    p ∈ numeric data ↔ ∃ s ∈ data, s.t = p.1 ∧ s.v = some p.2 := by
  unfold numeric
  rw [List.mem_filterMap]
  constructor
  · rintro ⟨s, hs, h⟩
    obtain ⟨v, hv, rfl⟩ := Option.map_eq_some_iff.mp h
    exact ⟨s, hs, rfl, hv⟩
  · rintro ⟨s, hs, ht, hv⟩
    exact ⟨s, hs, by simp [hv, ht]⟩

/-- Totals at two points agree when no sample lies between them. -/
theorem counterAt_congr {pts : List (Int × ℚ)} {w w' : Int} (h : ∀ p ∈ pts, p.1 ≤ w ↔ p.1 ≤ w') :
    counterAt pts w = counterAt pts w' := by
  have hf : pts.filter (·.1 ≤ w) = pts.filter (·.1 ≤ w') :=
    List.filter_congr fun p hp => by simp [h p hp]
  unfold counterAt
  rw [hf]

/-- The value the raw iterator shows at time `w`: that of its last sample at or before `w`. -/
def valueAt (out : List (Int × ℚ)) (w : Int) : Option ℚ :=
  ((out.filter (·.1 ≤ w)).getLast?).map Prod.snd

/-- A reader that emits at the timestamps of `pts`, each with the total up to it, shows
the total of `pts` at every time. -/
theorem valueAt_eq_counterAt {out pts : List (Int × ℚ)} (hpts : pts.Pairwise (fun p q => p.1 < q.1))
    (hts : out.map Prod.fst = pts.map Prod.fst) (hval : ∀ q ∈ out, counterAt pts q.1 = some q.2)
    (w : Int) : valueAt out w = counterAt pts w := by
  have hfst (l : List (Int × ℚ)) : (l.filter (·.1 ≤ w)).map Prod.fst = (l.map Prod.fst).filter (· ≤ w) := by
    rw [List.filter_map]
    rfl
  have hmap : (out.filter (·.1 ≤ w)).map Prod.fst = (pts.filter (·.1 ≤ w)).map Prod.fst := by
    rw [hfst, hfst, hts]
  unfold valueAt
  cases hf : pts.filter (·.1 ≤ w) with
  | nil =>
    rw [hf, List.map_nil, List.map_eq_nil_iff] at hmap
    simp [hmap, counterAt, hf, CounterTotal.total]
  | cons p ps =>
    have hne : out.filter (·.1 ≤ w) ≠ [] := by
      intro h
      rw [h, hf] at hmap
      simp at hmap
    set y := (out.filter (·.1 ≤ w)).getLast hne
    have hy : y ∈ out.filter (·.1 ≤ w) := List.getLast_mem hne
    have hyw : y.1 ≤ w := by simpa using (List.mem_filter.mp hy).2
    -- the last emission at or before `w` sits at the last sample of `pts` there
    have hlast : y.1 = ((pts.filter (·.1 ≤ w)).getLast (by simp [hf])).1 := by
      have := congrArg List.getLast? hmap
      rw [List.getLast?_map, List.getLast?_map, List.getLast?_eq_some_getLast hne,
        List.getLast?_eq_some_getLast (by simp [hf]), Option.map_some, Option.map_some] at this
      exact Option.some.inj this
    have hsorted' := hpts.filter (fun p => decide (p.1 ≤ w))
    rw [List.getLast?_eq_some_getLast hne, Option.map_some, ← hval y (List.mem_filter.mp hy).1]
    refine counterAt_congr fun q hq => ⟨fun h => le_trans h hyw, fun h => ?_⟩
    rw [hlast]
    exact le_getLast_of_sorted _ hsorted' q (List.mem_filter.mpr ⟨hq, by simpa using h⟩)

/-- Reading a downsampled counter refines reading the raw one: the samples come in
increasing time, each equal to what the raw read shows at its time, and the
last values agree. -/
structure CounterRefines (raw out : List (Int × ℚ)) : Prop where
  sorted : (out.map Prod.fst).Pairwise (· < ·)
  values : ∀ q ∈ out, valueAt raw q.1 = some q.2
  final : out.getLast?.map Prod.snd = raw.getLast?.map Prod.snd

theorem mem_frames {R : List (Int × ℚ) → XorChunk → Prop} {segs : List (List (Int × ℚ))}
    {wss : List XorChunk} (hw : List.Forall₂ R segs wss) {c : XorChunk}
    (hc : c ∈ List.zipWith frame segs wss) : ∃ s ws, s ∈ segs ∧ R s ws ∧ c = frame s ws := by
  induction hw with
  | nil => simp at hc
  | @cons s ws segs wss hsw _ ih =>
    rcases List.mem_cons.mp hc with rfl | hc
    · exact ⟨s, ws, by simp, hsw, rfl⟩
    · obtain ⟨s', ws', hs', hw', rfl⟩ := ih hc
      exact ⟨s', ws', List.mem_cons_of_mem _ hs', hw', rfl⟩

theorem frame_mem_frames {R : List (Int × ℚ) → XorChunk → Prop} {segs : List (List (Int × ℚ))}
    {wss : List XorChunk} (hw : List.Forall₂ R segs wss) {s : List (Int × ℚ)} (hs : s ∈ segs) :
    ∃ ws, R s ws ∧ frame s ws ∈ List.zipWith frame segs wss := by
  induction hw with
  | nil => simp at hs
  | @cons s' ws segs wss hsw _ ih =>
    rcases List.mem_cons.mp hs with rfl | hs
    · exact ⟨ws, hsw, by simp⟩
    · obtain ⟨ws', hw', hmem⟩ := ih hs
      exact ⟨ws', hw', List.mem_cons_of_mem _ hmem⟩

/-- A list with increasing timestamps ends at its greatest timestamp. -/
theorem getLast?_fst_of_max {l : List (Int × ℚ)} (hs : (l.map Prod.fst).Pairwise (· < ·)) {B : Int}
    (hmem : B ∈ l.map Prod.fst) (hle : ∀ q ∈ l, q.1 ≤ B) : ∃ y, l.getLast? = some y ∧ y.1 = B := by
  have hne : l ≠ [] := by
    rintro rfl
    simp at hmem
  obtain ⟨q, hq, rfl⟩ := List.mem_map.mp hmem
  refine ⟨l.getLast hne, List.getLast?_eq_some_getLast hne, le_antisymm (hle _ (List.getLast_mem hne)) ?_⟩
  exact le_getLast_of_sorted hne (List.pairwise_map.mp hs) q hq

/-- A list with increasing timestamps starts at its least timestamp. -/
theorem head?_fst_of_min {l : List (Int × ℚ)} (hs : (l.map Prod.fst).Pairwise (· < ·)) {A : Int}
    (hmem : A ∈ l.map Prod.fst) (hge : ∀ q ∈ l, A ≤ q.1) : ∃ y, l.head? = some y ∧ y.1 = A := by
  cases l with
  | nil => simp at hmem
  | cons y l =>
    refine ⟨y, rfl, le_antisymm ?_ (hge y (by simp))⟩
    obtain ⟨q, hq, rfl⟩ := List.mem_map.mp hmem
    rcases List.mem_cons.mp hq with rfl | hq
    · exact le_rfl
    · exact le_of_lt (List.rel_of_pairwise_cons (List.pairwise_map.mp hs) hq)

section Frames

variable {segs : List (List (Int × ℚ))} {wss : List XorChunk} {out : List (Int × ℚ)}
  (hw : List.Forall₂ WindowTotals segs wss) (hsorted : segs.flatten.Pairwise (fun p q => p.1 < q.1))
  (hR : Reads segs.flatten (List.zipWith frame segs wss) out)
include hw hsorted hR

/-- Every timestamp read lies between two raw ones. -/
theorem Reads.between : ∀ q ∈ out, ∃ x ∈ segs.flatten, ∃ y ∈ segs.flatten, x.1 ≤ q.1 ∧ q.1 ≤ y.1 := by
  intro q hq
  obtain ⟨c, hc, p, hp, hpq⟩ := hR.sound q hq
  obtain ⟨s, ws, hs, hsw, rfl⟩ := mem_frames hw hc
  have hss : s.Pairwise (fun p q => p.1 < q.1) :=
    List.Pairwise.sublist (List.sublist_flatten_of_mem hs) hsorted
  obtain ⟨⟨a, u⟩, rest, rfl⟩ := List.exists_cons_of_ne_nil hsw.nonempty
  obtain ⟨-, hbound, hcomplete, -⟩ := hsw.frame_times hss
  obtain ⟨h1, h2⟩ := hbound p.1 (hcomplete p hp)
  exact ⟨(a, u), List.mem_flatten_of_mem hs (by simp), _,
    List.mem_flatten_of_mem hs (List.getLast_mem _), hpq ▸ h1, hpq ▸ h2⟩

/-- The read ends at the last raw timestamp. -/
theorem Reads.getLast (hne : segs.flatten ≠ []) :
    ∃ y, out.getLast? = some y ∧ y.1 = (segs.flatten.getLast hne).1 := by
  have hmax : ∀ x ∈ segs.flatten, x.1 ≤ (segs.flatten.getLast hne).1 :=
    le_getLast_of_sorted hne hsorted
  refine getLast?_fst_of_max hR.sorted ?_ fun q hq => ?_
  · -- the chunk of the segment holding the last sample repeats it
    obtain ⟨s, hs, hBs⟩ := List.mem_flatten.mp (List.getLast_mem hne)
    obtain ⟨ws, hsw, hc⟩ := frame_mem_frames hw hs
    have hsne : s ≠ [] := hsw.nonempty
    have hss : s.Pairwise (fun p q => p.1 < q.1) :=
      List.Pairwise.sublist (List.sublist_flatten_of_mem hs) hsorted
    have hlast : (s.getLast hsne).1 = (segs.flatten.getLast hne).1 := le_antisymm
      (hmax _ (List.mem_flatten_of_mem hs (List.getLast_mem hsne)))
      (le_getLast_of_sorted hsne hss _ hBs)
    have hin : s.getLast hsne ∈ frame s ws := by
      simp [frame, List.getLast?_eq_some_getLast hsne]
    exact hlast ▸ hR.complete _ hc _ hin
  · obtain ⟨-, -, y, hy, -, hqy⟩ := hR.between hw hsorted q hq
    exact le_trans hqy (hmax y hy)

/-- The read starts with the first raw sample. -/
theorem Reads.head (hne : segs.flatten ≠ []) : out.head? = some (segs.flatten.head hne) := by
  cases hw with
  | nil => simp at hne
  | @cons s ws segs' wss' hsw hw' =>
    obtain ⟨⟨a, u⟩, rest, rfl⟩ := List.exists_cons_of_ne_nil hsw.nonempty
    simp only [List.flatten_cons, List.cons_append] at hsorted hR ⊢
    have hmem : a ∈ out.map Prod.fst :=
      hR.complete (frame ((a, u) :: rest) ws) (by simp) (a, u) (by simp [frame])
    have hge : ∀ q ∈ out, a ≤ q.1 := by
      intro q hq
      obtain ⟨x, hx, -, -, hxq, -⟩ := hR.between (List.Forall₂.cons hsw hw') (by simpa using hsorted) q
        hq
      simp only [List.flatten_cons, List.cons_append] at hx
      rcases List.mem_cons.mp hx with rfl | hx
      · exact hxq
      · exact le_trans (le_of_lt (List.rel_of_pairwise_cons hsorted hx)) hxq
    obtain ⟨y, hy, hya⟩ := head?_fst_of_min hR.sorted hmem hge
    have hv := hR.values y (List.mem_of_mem_head? hy)
    rw [hya, counterAt_head fun q hq => List.rel_of_pairwise_cons hsorted hq, Option.some.injEq] at hv
    rw [hy, List.head_cons, ← hya, hv]

end Frames

/-- Framed chunks over any cut of the numeric raw samples into segments read back as
the raw series does. -/
theorem counterRefines_frames {data : List Sample} (hinc : (data.map Sample.t).Pairwise (· < ·))
    (hnn : ∀ s ∈ data, ∀ v ∈ s.v, 0 ≤ v) {segs : List (List (Int × ℚ))} {wss : List XorChunk}
    (hw : List.Forall₂ WindowTotals segs wss) (hflat : segs.flatten = numeric data) :
    CounterRefines (applyCounterResets [data]).1
      (applyCounterResets ((List.zipWith frame segs wss).map XorChunk.samples)).1 := by
  have hsorted : segs.flatten.Pairwise (fun p q => p.1 < q.1) := hflat ▸ numeric_sorted hinc
  have hnn' : ∀ p ∈ segs.flatten, 0 ≤ p.2 := fun p hp => by
    obtain ⟨s, hs, -, hv⟩ := mem_numeric.mp (hflat ▸ hp)
    exact hnn s hs p.2 hv
  obtain ⟨hR, -⟩ := applyCounterResets_frames hw hsorted hnn'
  obtain ⟨hraw1, hraw2⟩ := applyCounterResets_raw hinc
  rw [← hflat] at hraw1 hraw2
  have hvalue := valueAt_eq_counterAt hsorted hraw1 hraw2
  refine ⟨hR.sorted, fun q hq => (hvalue q.1).trans (hR.values q hq), ?_⟩
  by_cases hne : segs.flatten = []
  · -- no numeric sample: no segment, nothing is read on either side
    have hout : (applyCounterResets ((List.zipWith frame segs wss).map XorChunk.samples)).1 = [] := by
      refine List.eq_nil_iff_forall_not_mem.mpr fun q hq => ?_
      obtain ⟨x, hx, -⟩ := hR.between hw hsorted q hq
      simp [hne] at hx
    rw [hne, List.map_nil, List.map_eq_nil_iff] at hraw1
    rw [hout, hraw1]
  · -- both reads end at the last numeric timestamp, with the total there
    obtain ⟨y, hy, hy1⟩ := hR.getLast hw hsorted hne
    obtain ⟨z, hz, hz1⟩ : ∃ z, (applyCounterResets [data]).1.getLast? = some z ∧
        z.1 = (segs.flatten.getLast hne).1 := by
      have := congrArg List.getLast? hraw1
      rw [List.getLast?_map, List.getLast?_map, List.getLast?_eq_some_getLast hne] at this
      obtain ⟨z, hz, hz1⟩ := Option.map_eq_some_iff.mp this
      exact ⟨z, hz, hz1⟩
    have hyv := hR.values y (List.mem_of_getLast? hy)
    have hzv := hraw2 z (List.mem_of_getLast? hz)
    rw [hy1] at hyv
    rw [hz1, hyv, Option.some.injEq] at hzv
    rw [hy, hz, Option.map_some, Option.map_some, hzv]

end Thanos.Downsample