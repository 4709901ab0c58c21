import Mathlib
import Thanos.Store.CachingBucket

/-! # The compaction planner

`tsdbBasedPlanner.plan` picks the next blocks of a group to compact: the overlapping blocks
that are not marked for no compaction first (`selectOverlappingMetas`); else, leaving the
newest block out, the first run of at least two blocks that fills an aligned range of a
larger level (`selectMetas` over `splitByRange`), with marked blocks cut out so that no gap
is compacted over; else one large block with more than 5% tombstones.

Whatever it picks is a run of consecutive blocks of the input with the marked ones removed,
of none, one or at least two blocks, and one block only through the tombstone rule
(`plan_spec`). When the blocks it may compact do not overlap, the run leaves the newest
block out, and a run of two or more lies in one aligned range of a level
(`plan_aligned`). -/

namespace Thanos.Compact

open Thanos.Store.Cache

/-- The fields of `metadata.Meta` the planners read: the ULID, the time range,
`Compaction.Failed`, the tombstone and series counts of `Stats`, the downsampling resolution
and the files with their sizes. -/
structure Meta (U : Type) where
  ulid : U
  minTime : Int
  maxTime : Int
  failed : Bool
  numTombstones : Nat
  numSeries : Nat
  resolution : Int
  files : List (String × Int)
  deriving DecidableEq, Repr

/-- A block of `planner_test.go`: ULID `u`, the range `[mint, maxt)` and nothing else. -/
def testMeta (u : Nat) (mint maxt : Int) : Meta Nat := ⟨u, mint, maxt, false, 0, 0, 0, []⟩

variable {U : Type}

/-! ## `selectOverlappingMetas` -/

/-- The loop of `selectOverlappingMetas` over `metasByMinTime[1:]`: `prev` is the block
before the current one and `globalMaxt` the largest end so far. -/
def overlapLoop (prev : Meta U) (globalMaxt : Int) (overlappingMetas : List (Meta U)) :
    List (Meta U) → List (Meta U)
  | [] => overlappingMetas
  | m :: ms =>
    if m.minTime < globalMaxt then
      -- the first overlap takes the block before it as well
      let overlappingMetas :=
        if overlappingMetas.length = 0 then overlappingMetas ++ [prev, m]
        else overlappingMetas ++ [m]
      overlapLoop m (if m.maxTime > globalMaxt then m.maxTime else globalMaxt) overlappingMetas ms
    else if overlappingMetas.length > 0 then overlappingMetas
    else overlapLoop m (if m.maxTime > globalMaxt then m.maxTime else globalMaxt) overlappingMetas ms

/-- `selectOverlappingMetas`: the first run of blocks overlapping the ones before them. -/
def selectOverlappingMetas : List (Meta U) → List (Meta U)
  | [] => []
  | [_] => []
  | m :: ms => overlapLoop m m.maxTime [] ms

/-! ## `splitByRange` -/

/-- `t0`: the start of the aligned range of size `tr` closest to a block's start, by Go's
truncated division. -/
def alignedStart (tr minTime : Int) : Int :=
  if minTime ≥ 0 then tr * minTime.tdiv tr else tr * (minTime - tr + 1).tdiv tr

theorem length_dropWhile_cons_lt {α : Type} {p : α → Bool} {a : α} {l : List α}
    (h : p a = true) : ((a :: l).dropWhile p).length < (a :: l).length := by
  rw [List.dropWhile_cons_of_pos h]
  exact Nat.lt_succ_of_le (List.length_dropWhile_le _ _)

/-- `splitByRange`: the blocks cut into groups that each fit in the aligned range of size
`tr` of their first block; a block that does not fit in its own range is skipped. -/
def splitByRange (tr : Int) : List (Meta U) → List (List (Meta U))
  | [] => []
  | m :: ms =>
    let t0 := alignedStart tr m.minTime
    if m.maxTime > t0 + tr then splitByRange tr ms
    else
      let group := (m :: ms).takeWhile fun m => !decide (m.maxTime > t0 + tr)
      let rest := (m :: ms).dropWhile fun m => !decide (m.maxTime > t0 + tr)
      if group.length > 0 then group :: splitByRange tr rest else splitByRange tr rest
termination_by l => l.length
decreasing_by
  · simp
  all_goals exact length_dropWhile_cons_lt (by simpa using ‹¬m.maxTime > _ + tr›)

/-! ## `selectMetas` -/

section Marked

variable [DecidableEq U]

/-- The loop over a part that cuts out the blocks marked for no compaction: `run` is
`p[lastExcluded:i]`, the blocks since the last marked one. -/
def excludedLoop (noCompactMarked : List U) (run : List (Meta U)) :
    List (Meta U) → Option (List (Meta U))
  | [] => if run.length > 1 then some run else none
  | m :: ms =>
    if m.ulid ∉ noCompactMarked then excludedLoop noCompactMarked (run ++ [m]) ms
    else if run.length > 1 then some run
    else excludedLoop noCompactMarked [] ms

/-- One turn of `selectMetas`'s loop over the parts of a level `iv`: the blocks it returns,
if it returns. -/
def selectPart (iv highTime : Int) (noCompactMarked : List U) (p : List (Meta U)) :
    Option (List (Meta U)) :=
  if p.any (·.failed) ∨ p.length < 2 then none
  else
    -- `p` has at least two blocks here
    let mint := (p.head?.map (·.minTime)).getD 0
    let maxt := (p.getLast?.map (·.maxTime)).getD 0
    if maxt - mint ≠ iv ∧ maxt > highTime then none
    else excludedLoop noCompactMarked [] p

/-- The loop of `selectMetas` over the parts of the level `iv`: the first part that returns. -/
def selectLevel (highTime : Int) (noCompactMarked : List U) (metasByMinTime : List (Meta U))
    (iv : Int) : Option (List (Meta U)) :=
  (splitByRange iv metasByMinTime).findSome? (selectPart iv highTime noCompactMarked)

/-- `selectMetas`: the first part of a level above the first, in order of the levels, that
spans its range or lies before the newest block's start, with its marked blocks cut out. -/
def selectMetas (ranges : List Int) (noCompactMarked : List U) (metasByMinTime : List (Meta U)) :
    List (Meta U) :=
  if ranges.length < 2 ∨ metasByMinTime.length < 1 then []
  else
    let highTime := (metasByMinTime.getLast?.map (·.minTime)).getD 0
    ((ranges.drop 1).findSome? (selectLevel highTime noCompactMarked metasByMinTime)).getD []

end Marked

/-! ## `tsdbBasedPlanner.plan` -/

/-- `float64(meta.Stats.NumTombstones)/float64(meta.Stats.NumSeries+1) > 0.05`. -/
def manyTombstones (m : Meta U) : Bool :=
  decide ((m.numTombstones : ℚ) / ((m.numSeries + 1 : Nat) : ℚ) > 0.05)

/-- The loop of `plan` over the blocks it may compact, from the newest: stop at the first
whose range is below `ranges[len(ranges)/2]`, pick the first with many tombstones. -/
def tombstoneLoop (ranges : List Int) : List (Meta U) → Result (List (Meta U))
  | [] => .ok []
  | m :: metas =>
    match ranges[ranges.length / 2]? with
    | none => .panic "index out of range"
    | some r =>
      if m.maxTime - m.minTime < r then .ok []
      else if manyTombstones m then .ok [m]
      else tombstoneLoop ranges metas

section Marked

variable [DecidableEq U]

/-- `tsdbBasedPlanner.plan`. An empty input panics at `metasByMinTime[len(metasByMinTime)-1]`. -/
def plan (ranges : List Int) (noCompactMarked : List U) (metasByMinTime : List (Meta U)) :
    Result (List (Meta U)) :=
  let notExcludedMetasByMinTime := metasByMinTime.filter (·.ulid ∉ noCompactMarked)
  let res := selectOverlappingMetas notExcludedMetasByMinTime
  if res.length > 0 then .ok res
  else
    match metasByMinTime.getLast? with
    | none => .panic "index out of range"
    | some last =>
      -- the newest block is left out
      let notExcludedMetasByMinTime := if last.ulid ∉ noCompactMarked then
        notExcludedMetasByMinTime.dropLast else notExcludedMetasByMinTime
      let res := res ++ selectMetas ranges noCompactMarked metasByMinTime.dropLast
      if res.length > 0 then .ok res
      else tombstoneLoop ranges notExcludedMetasByMinTime.reverse

-- "Blocks to fill the entire parent, but with first one excluded."
example : plan [20, 60, 180, 540, 1620] [1]
    [testMeta 1 0 20, testMeta 2 20 40, testMeta 3 40 60, testMeta 4 60 80] =
      .ok [testMeta 2 20 40, testMeta 3 40 60] := by
  decide +kernel

end Marked

/-! ## Runs of the input -/

/-- Blocks none of which starts before a block before it ends. -/
def NoOverlap (l : List (Meta U)) : Prop := l.Pairwise fun a b => a.maxTime ≤ b.minTime

/-- Blocks sorted by their start, as `metasByMinTime`. -/
def SortedByMinTime (l : List (Meta U)) : Prop := l.Pairwise fun a b => a.minTime ≤ b.minTime

instance (l : List (Meta U)) : Decidable (NoOverlap l) :=
  inferInstanceAs (Decidable (List.Pairwise _ l))

instance (l : List (Meta U)) : Decidable (SortedByMinTime l) :=
  inferInstanceAs (Decidable (List.Pairwise _ l))

/-- The blocks lie in `[t0, t0 + iv]` for a multiple `t0` of `iv`. -/
def InAlignedRange (iv : Int) (r : List (Meta U)) : Prop :=
  ∃ t0, iv ∣ t0 ∧ ∀ x ∈ r, t0 ≤ x.minTime ∧ x.maxTime ≤ t0 + iv

section Overlap

/-- Once a run has started, the loop only extends it with the blocks that follow. -/
theorem overlapLoop_of_ne_nil : ∀ (ms : List (Meta U)) (prev : Meta U) (g : Int)
    (acc : List (Meta U)), acc ≠ [] → ∃ k, overlapLoop prev g acc ms = acc ++ ms.take k
  | [], _, _, acc, _ => ⟨0, by simp [overlapLoop]⟩
  | m :: ms, prev, g, acc, hacc => by
    have hlen : acc.length ≠ 0 := by simpa using hacc
    unfold overlapLoop
    by_cases hov : m.minTime < g
    · rw [if_pos hov]
      simp only [hlen, ↓reduceIte]
      obtain ⟨k, hk⟩ := overlapLoop_of_ne_nil ms m
        (if m.maxTime > g then m.maxTime else g) (acc ++ [m]) (by simp)
      exact ⟨k + 1, by rw [hk, List.take_succ_cons, List.append_assoc, List.singleton_append]⟩
    · rw [if_neg hov, if_pos (Nat.pos_of_ne_zero hlen)]
      exact ⟨0, by simp⟩

/-- A run the loop starts has at least two blocks that stand together in the input. -/
theorem overlapLoop_nil : ∀ (ms : List (Meta U)) (prev : Meta U) (g : Int),
    overlapLoop prev g [] ms = [] ∨
      (2 ≤ (overlapLoop prev g [] ms).length ∧ overlapLoop prev g [] ms <:+: prev :: ms)
  | [], _, _ => .inl rfl
  | m :: ms, prev, g => by
    unfold overlapLoop
    by_cases hov : m.minTime < g
    · rw [if_pos hov]
      simp only [List.length_nil, ↓reduceIte, List.nil_append]
      obtain ⟨k, hk⟩ := overlapLoop_of_ne_nil ms m
        (if m.maxTime > g then m.maxTime else g) [prev, m] (by simp)
      rw [hk]
      refine .inr ⟨by simp, ?_⟩
      -- the run is `prev, m` and a prefix of what follows
      exact ((List.prefix_append_right_inj [prev, m]).mpr (List.take_prefix k ms)).isInfix
    · rw [if_neg hov]
      simp only [List.length_nil, Nat.lt_irrefl, ↓reduceIte]
      rcases overlapLoop_nil ms m (if m.maxTime > g then m.maxTime else g) with h | ⟨hlen, hinf⟩
      · exact .inl h
      · exact .inr ⟨hlen, hinf.trans (List.suffix_cons prev _).isInfix⟩

/-- `selectOverlappingMetas` finds no run, or a run of at least two consecutive blocks. -/
theorem selectOverlappingMetas_spec (l : List (Meta U)) :
    selectOverlappingMetas l = [] ∨
      (2 ≤ (selectOverlappingMetas l).length ∧ selectOverlappingMetas l <:+: l) := by
  match l with
  | [] => exact .inl rfl
  | [_] => exact .inl rfl
  | m :: m' :: ms => exact overlapLoop_nil (m' :: ms) m m.maxTime

theorem overlapLoop_eq_nil : ∀ (ms : List (Meta U)) (prev : Meta U) (g : Int),
    (∀ x ∈ ms, g ≤ x.minTime) → NoOverlap ms → overlapLoop prev g [] ms = []
  | [], _, _, _, _ => rfl
  | m :: ms, prev, g, hg, hno => by
    have hm := hg m List.mem_cons_self
    rw [NoOverlap, List.pairwise_cons] at hno
    unfold overlapLoop
    rw [if_neg (not_lt.mpr hm)]
    simp only [List.length_nil, Nat.lt_irrefl, ↓reduceIte]
    -- the largest end so far is still below every later start
    refine overlapLoop_eq_nil ms m _ (fun x hx => ?_) hno.2
    split_ifs
    · exact hno.1 x hx
    · exact hg x (List.mem_cons_of_mem _ hx)

/-- Blocks that do not overlap give no run. -/
theorem selectOverlappingMetas_eq_nil {l : List (Meta U)} (h : NoOverlap l) :
    selectOverlappingMetas l = [] := by
  match l, h with
  | [], _ => rfl
  | [_], _ => rfl
  | m :: m' :: ms, h =>
    rw [NoOverlap, List.pairwise_cons] at h
    exact overlapLoop_eq_nil (m' :: ms) m m.maxTime h.1 h.2

end Overlap

section Split

variable {tr : Int}

/-- Go's rounding of a start down to a multiple of `tr` by truncated division is floor
division. -/
theorem alignedStart_eq (htr : 0 < tr) (x : Int) : alignedStart tr x = tr * (x / tr) := by
  unfold alignedStart
  split_ifs with hx
  · rw [Int.tdiv_eq_ediv_of_nonneg hx]
  · -- `x - tr + 1` is negative, and truncation rounds `(tr - 1 - x) / tr` the other way
    rw [show x - tr + 1 = -(tr - 1 - x) by ring, Int.neg_tdiv,
      Int.tdiv_eq_ediv_of_nonneg (by omega)]
    congr 1
    rw [eq_comm, Int.ediv_eq_iff_of_pos htr]
    have h1 := Int.mul_ediv_add_emod (tr - 1 - x) tr
    have h2 := Int.emod_nonneg (tr - 1 - x) (ne_of_gt htr)
    have h3 := Int.emod_lt_of_pos (tr - 1 - x) htr
    constructor <;> nlinarith

theorem alignedStart_le (htr : 0 < tr) (x : Int) : alignedStart tr x ≤ x := by
  rw [alignedStart_eq htr]
  exact Int.mul_ediv_self_le (ne_of_gt htr)

theorem dvd_alignedStart (x : Int) : tr ∣ alignedStart tr x := by
  unfold alignedStart
  split_ifs <;> exact dvd_mul_right _ _

/-- Every group of `splitByRange` is a run of consecutive blocks of the input that ends within
the aligned range of its first block. -/
theorem splitByRange_spec (l : List (Meta U)) : ∀ p ∈ splitByRange tr l,
    p <:+: l ∧ ∃ m ms, p = m :: ms ∧ ∀ x ∈ p, x.maxTime ≤ alignedStart tr m.minTime + tr := by
  fun_induction splitByRange tr l with
  | case1 => simp
  | case2 m ms t0 hfit ih =>
    intro p hp
    obtain ⟨hinf, hfirst⟩ := ih p hp
    exact ⟨hinf.trans (List.suffix_cons m ms).isInfix, hfirst⟩
  | case3 m ms t0 hfit group rest hgroup ih =>
    intro p hp
    rcases List.mem_cons.mp hp with rfl | hp
    · -- the group: `m` and the blocks after it that end within `m`'s range
      refine ⟨(List.takeWhile_prefix _).isInfix, m, ms.takeWhile _,
        List.takeWhile_cons_of_pos (by simpa using hfit), fun x hx => ?_⟩
      simpa using List.mem_takeWhile_imp hx
    · obtain ⟨hinf, hfirst⟩ := ih p hp
      exact ⟨hinf.trans (List.dropWhile_suffix _).isInfix, hfirst⟩
  | case4 m ms t0 hfit group rest hgroup ih =>
    intro p hp
    obtain ⟨hinf, hfirst⟩ := ih p hp
    exact ⟨hinf.trans (List.dropWhile_suffix _).isInfix, hfirst⟩

/-- For blocks sorted by their start and a positive range, every group lies in one aligned
range. -/
theorem inAlignedRange_of_mem_splitByRange (htr : 0 < tr) {l p : List (Meta U)}
    (hl : SortedByMinTime l) (hp : p ∈ splitByRange tr l) : InAlignedRange tr p := by
  obtain ⟨hinf, m, ms, rfl, hend⟩ := splitByRange_spec l p hp
  have hsorted : SortedByMinTime (m :: ms) := hl.sublist hinf.sublist
  refine ⟨alignedStart tr m.minTime, dvd_alignedStart _, fun x hx => ⟨?_, hend x hx⟩⟩
  have hmx : m.minTime ≤ x.minTime := by
    rcases List.mem_cons.mp hx with rfl | hx
    · exact le_refl _
    · exact (List.pairwise_cons.mp hsorted).1 x hx
  exact (alignedStart_le htr _).trans hmx

theorem InAlignedRange.mono {iv : Int} {r r' : List (Meta U)} (h : InAlignedRange iv r)
    (hsub : ∀ x ∈ r', x ∈ r) : InAlignedRange iv r' := by
  obtain ⟨t0, hdvd, hin⟩ := h
  exact ⟨t0, hdvd, fun x hx => hin x (hsub x hx)⟩

end Split

section Select

variable [DecidableEq U] {marked : List U}

/-- A run the loop over a part returns has at least two blocks, none marked, that stand
together in the blocks since the last marked one and the rest of the part. -/
theorem excludedLoop_spec : ∀ (ms run r : List (Meta U)), (∀ x ∈ run, x.ulid ∉ marked) →
    excludedLoop marked run ms = some r →
      2 ≤ r.length ∧ (∀ x ∈ r, x.ulid ∉ marked) ∧ r <:+: run ++ ms
  | [], run, r, hrun, h => by
    simp only [excludedLoop] at h
    by_cases hlen : run.length > 1
    · rw [if_pos hlen] at h
      cases h
      exact ⟨hlen, hrun, by simp⟩
    · rw [if_neg hlen] at h
      cases h
  | m :: ms, run, r, hrun, h => by
    simp only [excludedLoop] at h
    by_cases hm : m.ulid ∈ marked
    · rw [if_neg (not_not.mpr hm)] at h
      by_cases hlen : run.length > 1
      · rw [if_pos hlen] at h
        cases h
        exact ⟨hlen, hrun, (List.prefix_append _ _).isInfix⟩
      · -- the run starts again after the marked block
        rw [if_neg hlen] at h
        obtain ⟨h1, h2, h3⟩ := excludedLoop_spec ms [] r (by simp) h
        refine ⟨h1, h2, h3.trans ?_⟩
        simpa using (List.suffix_append (run ++ [m]) ms).isInfix
    · rw [if_pos hm] at h
      have hrun' : ∀ x ∈ run ++ [m], x.ulid ∉ marked := by
        intro x hx
        rcases List.mem_append.mp hx with hx | hx
        · exact hrun x hx
        · rw [List.mem_singleton.mp hx]
          exact hm
      obtain ⟨h1, h2, h3⟩ := excludedLoop_spec ms (run ++ [m]) r hrun' h
      exact ⟨h1, h2, by simpa using h3⟩

theorem selectPart_spec {iv highTime : Int} {p r : List (Meta U)}
    (h : selectPart iv highTime marked p = some r) :
    2 ≤ r.length ∧ (∀ x ∈ r, x.ulid ∉ marked) ∧ r <:+: p := by
  unfold selectPart at h
  dsimp only at h
  split_ifs at h
  simpa using excludedLoop_spec p [] r (by simp) h

/-- What `selectMetas` returns, when it returns blocks: a run of at least two blocks, none
marked, in a part of `splitByRange` of a level above the first. -/
theorem selectMetas_spec {ranges : List Int} {metas : List (Meta U)}
    (hne : selectMetas ranges marked metas ≠ []) :
    2 ≤ (selectMetas ranges marked metas).length ∧
      (∀ x ∈ selectMetas ranges marked metas, x.ulid ∉ marked) ∧
      ∃ iv ∈ ranges.drop 1, ∃ p ∈ splitByRange iv metas, selectMetas ranges marked metas <:+: p := by
  unfold selectMetas at hne ⊢
  split_ifs at hne ⊢ with hshort
  · exact absurd rfl hne
  · dsimp only at hne ⊢
    cases hfound : (ranges.drop 1).findSome?
        (selectLevel ((metas.getLast?.map (·.minTime)).getD 0) marked metas) with
    | none =>
      rw [hfound] at hne
      exact absurd rfl hne
    | some r =>
      rw [Option.getD_some]
      obtain ⟨iv, hiv, hlevel⟩ := List.exists_of_findSome?_eq_some hfound
      obtain ⟨p, hp, hpart⟩ := List.exists_of_findSome?_eq_some hlevel
      obtain ⟨h1, h2, h3⟩ := selectPart_spec hpart
      exact ⟨h1, h2, iv, hiv, p, hp, h3⟩

end Select

/-- A run of a list whose elements all pass a test is a run of the elements that pass it. -/
theorem infix_filter_of_forall {α : Type} {p : α → Bool} {r l : List α} (h : r <:+: l)
    (hp : ∀ x ∈ r, p x = true) : r <:+: l.filter p := by
  have := h.filter p
  rwa [List.filter_eq_self.mpr hp] at this

section Plan

variable {ranges : List Int} {marked : List U}

/-- The tombstone loop picks nothing, or one block with many tombstones and a range of at
least `ranges[len(ranges)/2]`. -/
theorem tombstoneLoop_spec : ∀ (l r : List (Meta U)), tombstoneLoop ranges l = .ok r →
    r = [] ∨ ∃ m ∈ l, r = [m] ∧ manyTombstones m = true ∧
      ∃ r0, ranges[ranges.length / 2]? = some r0 ∧ r0 ≤ m.maxTime - m.minTime
  | [], r, h => by
    simp only [tombstoneLoop] at h
    cases h
    exact .inl rfl
  | m :: l, r, h => by
    simp only [tombstoneLoop] at h
    cases hr0 : ranges[ranges.length / 2]? with
    | none =>
      rw [hr0] at h
      cases h
    | some r0 =>
      rw [hr0] at h
      dsimp only at h
      by_cases hsmall : m.maxTime - m.minTime < r0
      · rw [if_pos hsmall] at h
        cases h
        exact .inl rfl
      · rw [if_neg hsmall] at h
        by_cases hmany : manyTombstones m = true
        · rw [if_pos hmany] at h
          cases h
          exact .inr ⟨m, List.mem_cons_self, rfl, hmany, r0, rfl, not_lt.mp hsmall⟩
        · rw [if_neg hmany] at h
          rcases tombstoneLoop_spec l r h with h | ⟨m', hm', h1, h2, h3⟩
          · exact .inl h
          · exact .inr ⟨m', List.mem_cons_of_mem _ hm', h1, h2, by rwa [hr0] at h3⟩

/-- What the tombstone loop over the blocks from the newest picks is a run of one block of
them, with many tombstones, or none. -/
theorem tombstoneLoop_run {l r : List (Meta U)} (h : tombstoneLoop ranges l.reverse = .ok r) :
    r <:+: l ∧ (r = [] ∨ ∃ m, r = [m] ∧ manyTombstones m = true ∧
      ∃ r0, ranges[ranges.length / 2]? = some r0 ∧ r0 ≤ m.maxTime - m.minTime) := by
  rcases tombstoneLoop_spec l.reverse r h with rfl | ⟨m, hm, rfl, hmany, hr0⟩
  · exact ⟨List.nil_infix, .inl rfl⟩
  · exact ⟨(List.singleton_infix_iff m l).mpr (List.mem_reverse.mp hm), .inr ⟨m, rfl, hmany, hr0⟩⟩

variable [DecidableEq U]

/-- With the newest block left out, whether it was marked or not, the blocks `plan` may still
compact are those of `metasByMinTime[:len-1]` not marked. -/
theorem filter_dropLast_of_getLast? {metas : List (Meta U)} {last : Meta U}
    (h : metas.getLast? = some last) :
    (if last.ulid ∉ marked then (metas.filter (·.ulid ∉ marked)).dropLast
      else metas.filter (·.ulid ∉ marked)) = metas.dropLast.filter (·.ulid ∉ marked) := by
  obtain ⟨init, rfl⟩ := List.getLast?_eq_some_iff.mp h
  rw [List.dropLast_concat, List.filter_append]
  by_cases hl : last.ulid ∈ marked
  · simp [hl]
  · simp [hl]

/-- The three ways `plan` returns: the overlapping blocks, the run `selectMetas` finds
without the newest block, or what the tombstone loop picks. -/
theorem plan_cases {metas r : List (Meta U)} (h : plan ranges marked metas = .ok r) :
    (selectOverlappingMetas (metas.filter (·.ulid ∉ marked)) ≠ [] ∧
        r = selectOverlappingMetas (metas.filter (·.ulid ∉ marked))) ∨
      (selectOverlappingMetas (metas.filter (·.ulid ∉ marked)) = [] ∧
        selectMetas ranges marked metas.dropLast ≠ [] ∧
        r = selectMetas ranges marked metas.dropLast) ∨
      (selectOverlappingMetas (metas.filter (·.ulid ∉ marked)) = [] ∧
        selectMetas ranges marked metas.dropLast = [] ∧
        tombstoneLoop ranges (metas.dropLast.filter (·.ulid ∉ marked)).reverse = .ok r) := by
  unfold plan at h
  dsimp only at h
  by_cases h1 : (selectOverlappingMetas (metas.filter (·.ulid ∉ marked))).length > 0
  · rw [if_pos h1] at h
    cases h
    exact .inl ⟨List.ne_nil_of_length_pos h1, rfl⟩
  · rw [if_neg h1] at h
    have h1' := List.eq_nil_of_length_eq_zero (Nat.eq_zero_of_not_pos h1)
    cases hlast : metas.getLast? with
    | none =>
      rw [hlast] at h
      cases h
    | some last =>
      rw [hlast] at h
      dsimp only at h
      rw [h1', List.nil_append] at h
      by_cases h2 : (selectMetas ranges marked metas.dropLast).length > 0
      · rw [if_pos h2] at h
        cases h
        exact .inr (.inl ⟨h1', List.ne_nil_of_length_pos h2, rfl⟩)
      · rw [if_neg h2, filter_dropLast_of_getLast? hlast] at h
        exact .inr (.inr ⟨h1', List.eq_nil_of_length_eq_zero (Nat.eq_zero_of_not_pos h2), h⟩)

/-- A run `selectMetas` returns is a run of at least two blocks not marked, within one aligned
range of a level above the first. -/
theorem selectMetas_run {metas : List (Meta U)} (hsorted : SortedByMinTime metas)
    (hranges : ∀ iv ∈ ranges, 0 < iv) (hne : selectMetas ranges marked metas ≠ []) :
    selectMetas ranges marked metas <:+: metas.filter (·.ulid ∉ marked) ∧
      2 ≤ (selectMetas ranges marked metas).length ∧
      ∃ iv ∈ ranges.drop 1, InAlignedRange iv (selectMetas ranges marked metas) := by
  obtain ⟨hlen, hnot, iv, hiv, p, hp, hinf⟩ := selectMetas_spec hne
  have hiv' : 0 < iv := hranges iv (List.mem_of_mem_drop hiv)
  refine ⟨infix_filter_of_forall (hinf.trans (splitByRange_spec metas p hp).1)
    (fun x hx => by simpa using hnot x hx), hlen, iv, hiv, ?_⟩
  exact (inAlignedRange_of_mem_splitByRange hiv' hsorted hp).mono fun x hx => hinf.subset hx

/-- Whatever `plan` returns is a run of consecutive blocks of the input with the marked ones
removed. -/
theorem infix_of_plan {metas r : List (Meta U)} (h : plan ranges marked metas = .ok r) :
    r <:+: metas.filter (·.ulid ∉ marked) := by
  have hprefix : metas.dropLast.filter (·.ulid ∉ marked) <+: metas.filter (·.ulid ∉ marked) :=
    (List.dropLast_prefix metas).filter _
  rcases plan_cases h with ⟨hne, rfl⟩ | ⟨-, hne, rfl⟩ | ⟨-, -, htomb⟩
  · rcases selectOverlappingMetas_spec (metas.filter (·.ulid ∉ marked)) with heq | ⟨-, hinf⟩
    · exact absurd heq hne
    · exact hinf
  · obtain ⟨-, hnot, iv, -, p, hp, hinf⟩ := selectMetas_spec hne
    exact (infix_filter_of_forall (hinf.trans (splitByRange_spec _ p hp).1)
      (fun x hx => by simpa using hnot x hx)).trans hprefix.isInfix
  · exact (tombstoneLoop_run htomb).1.trans hprefix.isInfix

/-- `plan` returns a single block only through the tombstone rule. -/
theorem manyTombstones_of_plan {metas : List (Meta U)} {m : Meta U}
    (h : plan ranges marked metas = .ok [m]) : manyTombstones m = true := by
  rcases plan_cases h with ⟨hne, heq⟩ | ⟨-, hne, heq⟩ | ⟨-, -, htomb⟩
  · rcases selectOverlappingMetas_spec (metas.filter (·.ulid ∉ marked)) with h' | ⟨hlen, -⟩
    · exact absurd h' hne
    · rw [← heq] at hlen
      simp at hlen
  · have hlen := (selectMetas_spec hne).1
    rw [← heq] at hlen
    simp at hlen
  · rcases (tombstoneLoop_run htomb).2 with h' | ⟨m', h', hmany, -⟩
    · simp at h'
    · rw [List.singleton_inj.mp h']
      exact hmany

/-- A block `plan` returns is a block of the input that is not marked. -/
theorem mem_of_plan {metas r : List (Meta U)} (h : plan ranges marked metas = .ok r)
    {x : Meta U} (hx : x ∈ r) : x ∈ metas.filter (·.ulid ∉ marked) :=
  (infix_of_plan h).subset hx

end Plan

/-- What `tsdbBasedPlanner.plan` returns, for blocks sorted by their start and positive
ranges: a run of consecutive blocks of the input with the marked ones removed; of no block,
of at least two, or of one only through the tombstone rule. When the blocks it may compact do
not overlap, the run is one of the blocks before the newest, and a run of two or more lies in
one aligned range of a level above the first. -/
theorem plan_selects_runs [DecidableEq U] (ranges : List Int) (marked : List U)
    (metas r : List (Meta U)) (hsorted : SortedByMinTime metas) (hranges : ∀ iv ∈ ranges, 0 < iv)
    (h : plan ranges marked metas = .ok r) :
    (∀ x ∈ r, x ∈ metas ∧ x.ulid ∉ marked) ∧
      r <:+: metas.filter (·.ulid ∉ marked) ∧
      (r = [] ∨ 2 ≤ r.length ∨ ∃ m, r = [m] ∧ manyTombstones m = true ∧
        ∃ r0, ranges[ranges.length / 2]? = some r0 ∧ r0 ≤ m.maxTime - m.minTime) ∧
      (NoOverlap (metas.filter (·.ulid ∉ marked)) →
        r <:+: metas.dropLast.filter (·.ulid ∉ marked) ∧
          (2 ≤ r.length → ∃ iv ∈ ranges.drop 1, InAlignedRange iv r)) := by
  have hprefix : metas.dropLast.filter (·.ulid ∉ marked) <+: metas.filter (·.ulid ∉ marked) :=
    (List.dropLast_prefix metas).filter _
  have hsorted' : SortedByMinTime metas.dropLast :=
    hsorted.sublist (List.dropLast_prefix metas).sublist
  -- the run, for each of the three ways `plan` returns
  have hrun : r <:+: metas.filter (·.ulid ∉ marked) ∧
      (r = [] ∨ 2 ≤ r.length ∨ ∃ m, r = [m] ∧ manyTombstones m = true ∧
        ∃ r0, ranges[ranges.length / 2]? = some r0 ∧ r0 ≤ m.maxTime - m.minTime) ∧
      (NoOverlap (metas.filter (·.ulid ∉ marked)) →
        r <:+: metas.dropLast.filter (·.ulid ∉ marked) ∧
          (2 ≤ r.length → ∃ iv ∈ ranges.drop 1, InAlignedRange iv r)) := by
    rcases plan_cases h with ⟨hne, rfl⟩ | ⟨-, hne, rfl⟩ | ⟨-, -, htomb⟩
    · rcases selectOverlappingMetas_spec (metas.filter (·.ulid ∉ marked)) with heq | ⟨hlen, hinf⟩
      · exact absurd heq hne
      · exact ⟨hinf, .inr (.inl hlen), fun hno => absurd (selectOverlappingMetas_eq_nil hno) hne⟩
    · obtain ⟨hinf, hlen, hal⟩ := selectMetas_run hsorted' hranges hne
      exact ⟨hinf.trans hprefix.isInfix, .inr (.inl hlen), fun _ => ⟨hinf, fun _ => hal⟩⟩
    · obtain ⟨hinf, hone⟩ := tombstoneLoop_run htomb
      refine ⟨hinf.trans hprefix.isInfix, ?_, fun _ => ⟨hinf, fun hlen => ?_⟩⟩
      · rcases hone with rfl | hm
        · exact .inl rfl
        · exact .inr (.inr hm)
      · rcases hone with rfl | ⟨m, rfl, -⟩ <;> simp at hlen
  refine ⟨fun x hx => ?_, hrun⟩
  have hx' := List.mem_filter.mp (hrun.1.subset hx)
  exact ⟨hx'.1, by simpa using hx'.2⟩

-- The tombstone rule takes a large block whatever its alignment: with the levels 10 and 20,
-- the block [5, 30] with one tombstone in no series and a newest block after it are planned
-- as the block alone, which lies in no aligned range of size 20.
example :
    NoOverlap [(⟨1, 5, 30, false, 1, 0, 0, []⟩ : Meta Nat), testMeta 2 40 50] ∧
      plan [10, 20] [] [(⟨1, 5, 30, false, 1, 0, 0, []⟩ : Meta Nat), testMeta 2 40 50] =
        .ok [⟨1, 5, 30, false, 1, 0, 0, []⟩] ∧
      ¬ ∃ iv ∈ ([10, 20] : List Int).drop 1,
        InAlignedRange iv [(⟨1, 5, 30, false, 1, 0, 0, []⟩ : Meta Nat)] := by
  refine ⟨by decide, by decide +kernel, ?_⟩
  rintro ⟨iv, hiv, t0, hdvd, hin⟩
  obtain rfl : iv = 20 := by simpa using hiv
  obtain ⟨hstart, hend⟩ := hin _ List.mem_cons_self
  dsimp only at hstart hend
  omega

end Thanos.Compact
