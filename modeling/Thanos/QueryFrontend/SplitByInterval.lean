import Mathlib.Algebra.Order.Ring.Int
import Mathlib.Data.List.Basic
import Mathlib.Tactic.Linarith

/-! # Splitting a range query by interval

`splitQuery` cuts a range query `[start, end]` with step `step` into sub-queries
that end one step before the next interval boundary on the step grid of `start`,
the last one clamped to `end`. The interval is `dynamicIntervalFn`'s: the static
one when set, else the maximum, an equal share of the query among
`HorizontalShards`, or the minimum.

Durations are in nanoseconds and timestamps in milliseconds; Go's `/` and `%` on
`int64` truncate (`Int.tdiv`, `Int.tmod`). A function that can divide by zero
returns `none` for the panic. The loop of `splitQuery` runs on a fuel of one
round per millisecond of the query, which `splitLoop_tiles` shows is enough. -/

namespace Thanos.QueryFrontend

/-- The fields of `ThanosQueryRangeRequest` that splitting reads, in milliseconds. -/
structure QueryRangeRequest where
  (start end' step : Int)
  deriving DecidableEq, Repr

/-- The request checks of `DecodeRequest`. -/
def QueryRangeRequest.accepted (r : QueryRangeRequest) : Bool :=
  r.start ≤ r.end' && r.step > 0 && (r.end' - r.start).tdiv r.step ≤ 11000

/-- The durations of `QueryRangeConfig` that choose the split interval, in
nanoseconds, and whether a results cache is configured. -/
structure QueryRangeConfig where
  splitQueriesByInterval : Int
  minQuerySplitInterval : Int
  maxQuerySplitInterval : Int
  horizontalShards : Int
  resultsCache : Bool
  deriving DecidableEq, Repr

def QueryRangeConfig.isStaticSplitSet (c : QueryRangeConfig) : Bool := c.splitQueriesByInterval ≠ 0

def QueryRangeConfig.isDynamicSplitSet (c : QueryRangeConfig) : Bool :=
  c.minQuerySplitInterval > 0 || c.horizontalShards > 0 || c.maxQuerySplitInterval > 0

/-- The part of `Config.Validate` about splitting range queries. -/
def QueryRangeConfig.validate (c : QueryRangeConfig) : Except String Unit := do
  if c.resultsCache ∧ c.splitQueriesByInterval ≤ 0 ∧ !c.isDynamicSplitSet then
    throw "split queries or split threshold interval should be greater than 0 when caching is enabled"
  if c.isDynamicSplitSet ∧ c.isStaticSplitSet then
    throw "split queries interval and dynamic query split interval cannot be set at the same time"
  if c.isDynamicSplitSet then
    if c.horizontalShards ≤ 0 then
      throw "min horizontal shards should be greater than 0 when query split threshold is enabled"
    if c.maxQuerySplitInterval ≤ 0 then
      throw "max query split interval should be greater than 0 when query split threshold is enabled"
    if c.minQuerySplitInterval ≤ 0 then
      throw "min query split interval should be greater than 0 when query split threshold is enabled"

def nsPerMs : Int := 1000000

/-- `dynamicIntervalFn(config)(r)`. -/
def dynamicIntervalFn (c : QueryRangeConfig) (r : QueryRangeRequest) : Option Int :=
  -- use the static interval by default
  if c.splitQueriesByInterval ≠ 0 then some c.splitQueriesByInterval
  else
    let queryInterval := (r.end' - r.start) * nsPerMs
    if c.maxQuerySplitInterval = 0 then none
    else if queryInterval.tdiv c.maxQuerySplitInterval ≥ 2 then some c.maxQuerySplitInterval
    else if queryInterval > c.minQuerySplitInterval then
      if c.horizontalShards = 0 then none
      else some ((queryInterval.tdiv nsPerMs).tdiv c.horizontalShards * nsPerMs)
    else some c.minQuerySplitInterval

/-- Rounds up to the step before the next interval boundary. -/
def nextIntervalBoundary (t step interval : Int) : Option Int :=
  let msPerInterval := interval.tdiv nsPerMs
  if msPerInterval = 0 ∨ step = 0 then none
  else
    let startOfNextInterval := (t.tdiv msPerInterval + 1) * msPerInterval
    -- a multiple of steps away from the start time
    let target := startOfNextInterval - (startOfNextInterval - t).tmod step
    some (if target = startOfNextInterval then target - step else target)

/-- The loop of `splitQuery` from `start`, for at most `fuel` rounds: the
sub-requests as `(start, end)`. -/
def splitLoop (r : QueryRangeRequest) (interval : Int) : Nat → Int → Option (List (Int × Int))
  | 0, _ => some []
  | fuel + 1, start =>
    if start < r.end' then do
      let e ← nextIntervalBoundary start r.step interval
      let e := if e + r.step ≥ r.end' then r.end' else e
      let next ← nextIntervalBoundary start r.step interval
      let rest ← splitLoop r interval fuel (next + r.step)
      pure ((start, e) :: rest)
    else some []

/-- `splitQuery` for a `ThanosQueryRangeRequest`. -/
def splitQuery (r : QueryRangeRequest) (interval : Int) : Option (List (Int × Int)) :=
  if r.start = r.end' then some [(r.start, r.start)]
  else splitLoop r interval ((r.end' - r.start).toNat + 1) r.start

/-! ## The sub-requests tile the query -/

/-- Sub-requests `[s₀, e₀], …, [sₙ, eₙ]` from `start` to `end'`: `s₀ = start`,
`eₙ = end'`, `sᵢ ≤ eᵢ`, and each one before the last ends on the step grid of its
start, with the next one a step later. -/
def Tiles (step : Int) : Int → Int → List (Int × Int) → Prop
  | _, _, [] => False
  | start, end', [(s, e)] => s = start ∧ e = end' ∧ s ≤ e
  | start, end', (s, e) :: rest => s = start ∧ s ≤ e ∧ step ∣ e - s ∧ Tiles step (e + step) end' rest

theorem tiles_single {step start end' : Int} (h : start ≤ end') : Tiles step start end' [(start, end')] :=
  ⟨rfl, rfl, h⟩

theorem tiles_cons {step start e end' : Int} {rest : List (Int × Int)} (hle : start ≤ e)
    (hdvd : step ∣ e - start) (hrest : Tiles step (e + step) end' rest) :
    Tiles step start end' ((start, e) :: rest) := by
  cases rest with
  | nil => exact hrest.elim
  | cons q rest => exact ⟨rfl, hle, hdvd, hrest⟩

/-- Every sub-request starts at or after the first one. -/
theorem Tiles.start_le {step : Int} (hstep : 0 < step) :
    ∀ {start end' : Int} {reqs : List (Int × Int)}, Tiles step start end' reqs →
      ∀ q ∈ reqs, start ≤ q.1
  | _, _, [], h => h.elim
  | _, _, [(s, e)], h => by
    intro q hq
    rw [List.mem_singleton.mp hq, h.1]
  | _, _, (s, e) :: q' :: rest, h => by
    obtain ⟨rfl, hle, _, hrest⟩ := h
    intro q hq
    rcases List.mem_cons.mp hq with rfl | hq
    · exact le_refl _
    · have := Tiles.start_le hstep hrest q hq
      omega

/-- A tiling evaluates each timestamp of the step grid in `[start, end']` in exactly
one sub-request. -/
theorem Tiles.count_cover {step : Int} (hstep : 0 < step) :
    ∀ {start end' : Int} {reqs : List (Int × Int)}, Tiles step start end' reqs →
      ∀ t, start ≤ t → t ≤ end' → step ∣ t - start →
        (reqs.filter fun q => decide (q.1 ≤ t ∧ t ≤ q.2)).length = 1
  | _, _, [], h => h.elim
  | _, _, [(s, e)], h => by
    obtain ⟨rfl, rfl, _⟩ := h
    intro t h1 h2 _
    simp [h1, h2]
  | _, _, (s, e) :: q' :: rest, h => by
    obtain ⟨rfl, hle, hdvd, hrest⟩ := h
    intro t h1 h2 hgrid
    have hafter := Tiles.start_le hstep hrest
    by_cases hte : t ≤ e
    · -- in the first sub-request, before every later one
      rw [List.filter_cons_of_pos (by simp [h1, hte]), List.length_cons, Nat.add_eq_right,
        List.length_eq_zero_iff, List.filter_eq_nil_iff]
      intro q hq
      have := hafter q hq
      simp only [decide_eq_true_eq, not_and, not_le]
      intro h
      omega
    · -- past it: the grid point is a step or more later
      have hd : step ∣ t - e := by
        have := Int.dvd_sub hgrid hdvd
        rwa [show t - s - (e - s) = t - e by omega] at this
      have hnext : e + step ≤ t := by
        have := Int.le_of_dvd (by omega) hd
        omega
      have hgrid' : step ∣ t - (e + step) := by
        have := Int.dvd_sub hd (dvd_refl step)
        rwa [show t - e - step = t - (e + step) by omega] at this
      rw [List.filter_cons_of_neg (by simp only [decide_eq_true_eq, not_and_or]; omega)]
      exact Tiles.count_cover hstep hrest t hnext h2 hgrid'

/-- With a positive interval of milliseconds and a positive step, the boundary
exists and lies at or after `t` on its step grid. -/
theorem nextIntervalBoundary_spec {t step interval : Int} (hm : 0 < interval.tdiv nsPerMs)
    (hstep : 0 < step) :
    ∃ b, nextIntervalBoundary t step interval = some b ∧ t ≤ b ∧ step ∣ b - t := by
  set m := interval.tdiv nsPerMs with hmdef
  have hS : t < (t.tdiv m + 1) * m := Int.lt_tdiv_add_one_mul_self t hm
  set S := (t.tdiv m + 1) * m with hSdef
  have hr : (S - t).tmod step = (S - t) % step := Int.tmod_eq_emod_of_nonneg (by omega)
  have hr0 : 0 ≤ (S - t) % step := Int.emod_nonneg _ (by omega)
  have hdvd : step ∣ S - t - (S - t) % step := Int.dvd_self_sub_emod
  -- the remainder is at most the distance to the boundary
  have hrle : (S - t) % step ≤ S - t := by
    have hq := Int.mul_nonneg hstep.le (Int.ediv_nonneg (show 0 ≤ S - t by omega) hstep.le)
    have := Int.emod_add_mul_ediv (S - t) step
    linarith
  simp only [nextIntervalBoundary, ← hmdef, ← hSdef, hr]
  rw [if_neg (by omega)]
  refine ⟨_, rfl, ?_⟩
  split_ifs with htarget
  · -- the target is the boundary itself: one step back
    have hzero : (S - t) % step = 0 := by omega
    have hd : step ∣ S - t := Int.dvd_of_emod_eq_zero hzero
    have := Int.le_of_dvd (by omega) hd
    refine ⟨by omega, ?_⟩
    rw [show S - (S - t) % step - step - t = S - t - step by omega]
    exact Int.dvd_sub hd (dvd_refl step)
  · refine ⟨by omega, ?_⟩
    rw [show S - (S - t) % step - t = S - t - (S - t) % step by omega]
    exact hdvd

section Loop

variable {r : QueryRangeRequest} {interval : Int}

/-- From any start before the end, with a fuel above the milliseconds left, the
loop returns sub-requests that tile the rest of the query. -/
theorem splitLoop_tiles (hm : 0 < interval.tdiv nsPerMs) (hstep : 0 < r.step) :
    ∀ (fuel : Nat) (start : Int), start < r.end' → (r.end' - start).toNat < fuel →
      ∃ reqs, splitLoop r interval fuel start = some reqs ∧ Tiles r.step start r.end' reqs := by
  intro fuel
  induction fuel with
  | zero =>
    intro start _ hfuel
    omega
  | succ f ih =>
    intro start hlt hfuel
    obtain ⟨b, hb, hle, hdvd⟩ := nextIntervalBoundary_spec (t := start) hm hstep
    simp only [splitLoop, if_pos hlt, hb, bind, Option.bind_some]
    by_cases hclamp : b + r.step ≥ r.end'
    · -- the last sub-request, clamped to the end
      have hrest : splitLoop r interval f (b + r.step) = some [] := by
        cases f with
        | zero => rfl
        | succ f => simp only [splitLoop, if_neg (not_lt.mpr hclamp)]
      rw [if_pos hclamp, hrest]
      exact ⟨_, rfl, tiles_single hlt.le⟩
    · obtain ⟨rest, hrest, htiles⟩ := ih (b + r.step) (by omega) (by omega)
      rw [if_neg hclamp, hrest]
      exact ⟨_, rfl, tiles_cons hle hdvd htiles⟩

/-- For an accepted request and an interval of at least a millisecond, `splitQuery`
returns sub-requests that tile the query on its step grid; a query of one instant
is one sub-request. -/
theorem splitQuery_tiles (hacc : r.accepted) (hm : 0 < interval.tdiv nsPerMs) :
    ∃ reqs, splitQuery r interval = some reqs ∧ Tiles r.step r.start r.end' reqs ∧
      (r.start = r.end' → reqs = [(r.start, r.start)]) := by
  simp only [QueryRangeRequest.accepted, Bool.and_eq_true, decide_eq_true_eq] at hacc
  obtain ⟨⟨hle, hstep⟩, _⟩ := hacc
  by_cases heq : r.start = r.end'
  · refine ⟨_, by rw [splitQuery, if_pos heq], ?_, fun _ => rfl⟩
    exact heq ▸ tiles_single (le_refl r.start)
  · obtain ⟨reqs, hreqs, htiles⟩ := splitLoop_tiles hm hstep ((r.end' - r.start).toNat + 1) r.start
      (by omega) (by omega)
    exact ⟨reqs, by rw [splitQuery, if_neg heq, hreqs], htiles, fun h => absurd h heq⟩

end Loop

/-- A validated dynamic configuration (a minimum of 1 ns, a maximum of an hour, two
horizontal shards) on a query of one millisecond with a step of one: the interval is
half of a millisecond, truncated to zero, and `nextIntervalBoundary` divides by it. -/
theorem splitQuery_dynamic_interval_divides_by_zero :
    let c : QueryRangeConfig := ⟨0, 1, 3600000000000, 2, false⟩
    let r : QueryRangeRequest := ⟨0, 1, 1⟩
    c.validate = .ok () ∧ r.accepted ∧ dynamicIntervalFn c r = some 0 ∧ splitQuery r 0 = none := by
  decide

end Thanos.QueryFrontend
