import Thanos.Compact.Planner

/-! # The planners that mark blocks for no compaction

`largeTotalIndexSizeFilter.plan` plans with `tsdbBasedPlanner.plan` and, while the index
sizes of a plan sum up to 85% of `totalMaxIndexSizeBytes`, marks the plan's biggest block for
no compaction and plans again; `verticalCompactionDownsampleFilter.Plan` plans through it and,
while the plan overlaps and holds downsampled blocks, marks those and plans again. Both loops
are unbounded in Go; here they take the rounds they may run.

Each marked block is a block of the plan made just before it, so of the input, and never one
marked already: `n + 1` rounds are enough for `n` blocks (`largeTotalIndexSizePlan_spec`,
`verticalPlan_spec`). What the size filter returns has every running sum of index sizes
below the limit; what the vertical filter returns does not overlap or holds no downsampled
block. -/

namespace Thanos.Compact

open Thanos.Store.Cache

variable {U : Type}

/-- `block.IndexFilename`. -/
def indexFilename : String := "index"

/-- The `index` size the meta records: the size of its last `index` file, `-1` without one. -/
def metaIndexSize (m : Meta U) : Int :=
  m.files.foldl (fun indexSize f => if f.1 = indexFilename then f.2 else indexSize) (-1)

/-- What the filters see of the world: the planner's levels and the no-compact marks it
gathered, the sizes `Attributes` gives for `<ULID>/index`, the upload of a no-compact mark, and
`totalMaxIndexSizeBytes`. -/
structure FilterEnv (U : Type) where
  ranges : List Int
  noCompBlocks : List U
  attributes : U → Except String Int
  markForNoCompact : U → Except String Unit
  totalMaxIndexSizeBytes : Int

/-- `int64(float64(t.totalMaxIndexSizeBytes)*0.85)`: 85% of the limit, truncated. -/
def indexSizeLimit (totalMaxIndexSizeBytes : Int) : Int :=
  let q : ℚ := totalMaxIndexSizeBytes * 0.85
  q.num.tdiv q.den

section Messages

variable [DecidableEq U] [ToString U]

/-- The index size of a planned block: from its meta, or from the bucket when the meta has
none. -/
def blockIndexSize (attributes : U → Except String Int) (p : Meta U) : Except String Int :=
  if metaIndexSize p ≤ 0 then
    match attributes p.ulid with
    | .ok size => .ok size
    | .error err =>
      let id := p.ulid
      .error s!"get attr of {id}/{indexFilename}: {err}"
  else .ok (metaIndexSize p)

/-- The loop of `largeTotalIndexSizeFilter.plan` over a plan from its `i`-th block: the sizes
added up until they reach `limit`, and then `some biggestIndex`, the index of the biggest
block so far. -/
def indexSizeLoop (attributes : U → Except String Int) (limit : Int) :
    Nat → Int → Int → Nat → List (Meta U) → Except String (Option Nat)
  | _, _, _, _, [] => .ok none
  | i, totalIndexBytes, maxIndexSize, biggestIndex, p :: ps =>
    match blockIndexSize attributes p with
    | .error err => .error err
    | .ok indexSize =>
      let biggest := if maxIndexSize < indexSize then (indexSize, i) else (maxIndexSize, biggestIndex)
      let totalIndexBytes := totalIndexBytes + indexSize
      if totalIndexBytes ≥ limit then .ok (some biggest.2)
      else indexSizeLoop attributes limit (i + 1) totalIndexBytes biggest.1 biggest.2 ps

/-- `PlanLoop` of `largeTotalIndexSizeFilter.plan` for at most `fuel` rounds, with the marks
`copiedNoCompactMarked` the planner excludes: the plan it returns and the blocks it marked,
or `none` when the rounds run out. -/
def largeTotalIndexSizeLoop (env : FilterEnv U) (metasByMinTime : List (Meta U)) :
    Nat → List U → List U → Option (Result (List (Meta U) × List U))
  | 0, _, _ => none
  | fuel + 1, copiedNoCompactMarked, marked =>
    match plan env.ranges copiedNoCompactMarked metasByMinTime with
    | .error err => some (.error err)
    | .panic msg => some (.panic msg)
    | .ok p =>
      match indexSizeLoop env.attributes (indexSizeLimit env.totalMaxIndexSizeBytes) 0 0
          (-2 ^ 63) 0 p with
      | .error err => some (.error err)
      | .ok none => some (.ok (p, marked))
      | .ok (some biggestIndex) =>
        match p[biggestIndex]? with
        | none => some (.panic "index out of range")
        | some b =>
          match env.markForNoCompact b.ulid with
          | .error err =>
            let id := b.ulid
            some (.error s!"mark {id} for no compaction: {err}")
          | .ok () =>
            largeTotalIndexSizeLoop env metasByMinTime fuel (copiedNoCompactMarked ++ [b.ulid])
              (marked ++ [b.ulid])

/-- `largeTotalIndexSizeFilter.plan` with the extra marks `extraNoCompactMarked`. -/
def largeTotalIndexSizePlan (env : FilterEnv U) (fuel : Nat) (extraNoCompactMarked : List U)
    (metasByMinTime : List (Meta U)) : Option (Result (List (Meta U) × List U)) :=
  largeTotalIndexSizeLoop env metasByMinTime fuel (env.noCompBlocks ++ extraNoCompactMarked) []

/-- The loop of `verticalCompactionDownsampleFilter.Plan` over a plan: the downsampled blocks
marked, in order. -/
def markDownsampled (env : FilterEnv U) : List (Meta U) → Except String (List U)
  | [] => .ok []
  | m :: ms =>
    if m.resolution = 0 then markDownsampled env ms
    else
      match env.markForNoCompact m.ulid with
      | .error err =>
        let id := m.ulid
        .error s!"mark {id} for no compaction: {err}"
      | .ok () => (m.ulid :: ·) <$> markDownsampled env ms

/-- `PlanLoop` of `verticalCompactionDownsampleFilter.Plan` for at most `fuel` rounds, each
planning through the size filter with `inner` rounds: the plan it returns and the blocks it
marked, or `none` when rounds run out. -/
def verticalLoop (env : FilterEnv U) (inner : Nat) (metasByMinTime : List (Meta U)) :
    Nat → List U → List U → Option (Result (List (Meta U) × List U))
  | 0, _, _ => none
  | fuel + 1, noCompactMarked, marked =>
    match largeTotalIndexSizePlan env inner noCompactMarked metasByMinTime with
    | none => none
    | some (.error err) => some (.error err)
    | some (.panic msg) => some (.panic msg)
    | some (.ok (p, innerMarked)) =>
      if (selectOverlappingMetas p).length = 0 then some (.ok (p, marked ++ innerMarked))
      else
        match markDownsampled env p with
        | .error err => some (.error err)
        | .ok [] => some (.ok (p, marked ++ innerMarked))
        | .ok downsampled =>
          verticalLoop env inner metasByMinTime fuel (noCompactMarked ++ downsampled)
            (marked ++ innerMarked ++ downsampled)

/-- `verticalCompactionDownsampleFilter.Plan`. -/
def verticalPlan (env : FilterEnv U) (fuel inner : Nat) (metasByMinTime : List (Meta U)) :
    Option (Result (List (Meta U) × List U)) :=
  verticalLoop env inner metasByMinTime fuel [] []

end Messages

/-! ## Index sizes -/

/-- The index size of a block when the bucket gives `size` for `<ULID>/index`. -/
def indexSizeWith (size : U → Int) (m : Meta U) : Int :=
  if metaIndexSize m ≤ 0 then size m.ulid else metaIndexSize m

section Sizes

variable [ToString U] {attributes : U → Except String Int} {limit : Int}

theorem blockIndexSize_of_attributes {size : U → Int} (h : ∀ u, attributes u = .ok (size u))
    (m : Meta U) : blockIndexSize attributes m = .ok (indexSizeWith size m) := by
  unfold blockIndexSize indexSizeWith
  split_ifs
  · rw [h]
  · rfl

/-- Returning no index, the loop saw every running sum of the sizes stay below the limit. -/
theorem indexSizeLoop_none {size : Meta U → Int}
    (hsize : ∀ m, blockIndexSize attributes m = .ok (size m)) :
    ∀ (ps : List (Meta U)) (i : Nat) (total maxIndexSize : Int) (biggestIndex : Nat),
      indexSizeLoop attributes limit i total maxIndexSize biggestIndex ps = .ok none →
      ∀ k, 0 < k → k ≤ ps.length → total + ((ps.take k).map size).sum < limit
  | [], _, _, _, _, _, k, hk, hkl => absurd hkl (by simp; omega)
  | p :: ps, i, total, maxIndexSize, biggestIndex, h, k, hk, hkl => by
    simp only [indexSizeLoop, hsize p] at h
    by_cases hge : total + size p ≥ limit
    · rw [if_pos hge] at h
      cases h
    · rw [if_neg hge] at h
      obtain ⟨k, rfl⟩ : ∃ k', k = k' + 1 := ⟨k - 1, by omega⟩
      rw [List.take_succ_cons, List.map_cons, List.sum_cons]
      rcases Nat.eq_zero_or_pos k with rfl | hk'
      · simp only [List.take_zero, List.map_nil, List.sum_nil, add_zero]
        omega
      · have := indexSizeLoop_none hsize ps (i + 1) _ _ _ h k hk' (by simpa using hkl)
        linarith

/-- Marking the downsampled blocks of a plan, when every mark is uploaded, marks exactly
them. -/
theorem markDownsampled_ok (env : FilterEnv U) : ∀ (ps : List (Meta U)) (ds : List U),
    markDownsampled env ps = .ok ds → ds = (ps.filter (·.resolution ≠ 0)).map Meta.ulid
  | [], ds, h => by
    simp only [markDownsampled] at h
    cases h
    rfl
  | m :: ms, ds, h => by
    simp only [markDownsampled] at h
    by_cases hres : m.resolution = 0
    · rw [if_pos hres] at h
      rw [List.filter_cons_of_neg (by simpa using hres)]
      exact markDownsampled_ok env ms ds h
    · rw [if_neg hres] at h
      rw [List.filter_cons_of_pos (by simpa using hres), List.map_cons]
      cases hmark : env.markForNoCompact m.ulid with
      | error err =>
        rw [hmark] at h
        cases h
      | ok u =>
        rw [hmark] at h
        cases hrest : markDownsampled env ms with
        | error err =>
          rw [hrest] at h
          cases h
        | ok ds' =>
          rw [hrest] at h
          cases h
          rw [markDownsampled_ok env ms ds' hrest]

end Sizes

/-! ## Marks -/

section Marks

variable [DecidableEq U]

/-- Marks made one after another, each on a block of the plan made with the marks before it. -/
inductive MarkedFromPlans (ranges : List Int) (metas : List (Meta U)) : List U → List U → Prop
  | nil (copied : List U) : MarkedFromPlans ranges metas copied []
  | cons {copied ms : List U} {u : U} {p : List (Meta U)} :
      plan ranges copied metas = .ok p → u ∈ p.map Meta.ulid →
      MarkedFromPlans ranges metas (copied ++ [u]) ms → MarkedFromPlans ranges metas copied (u :: ms)

/-- Such marks are blocks of the input not marked before, each marked once. -/
theorem MarkedFromPlans.fresh {ranges : List Int} {metas : List (Meta U)} {copied ms : List U}
    (h : MarkedFromPlans ranges metas copied ms) :
    (∀ u ∈ ms, u ∈ metas.map Meta.ulid ∧ u ∉ copied) ∧ ms.Nodup := by
  induction h with
  | nil => exact ⟨fun _ h => absurd h List.not_mem_nil, List.nodup_nil⟩
  | @cons copied ms u p hplan hu _ ih =>
    obtain ⟨x, hx, rfl⟩ := List.mem_map.mp hu
    have hx' := List.mem_filter.mp (mem_of_plan hplan hx)
    have hnot : x.ulid ∉ copied := by simpa using hx'.2
    refine ⟨fun w hw => ?_, List.nodup_cons.mpr ⟨fun hw => ?_, ih.2⟩⟩
    · rcases List.mem_cons.mp hw with rfl | hw
      · exact ⟨List.mem_map_of_mem hx'.1, hnot⟩
      · exact ⟨(ih.1 w hw).1, fun hc => (ih.1 w hw).2 (List.mem_append_left _ hc)⟩
    · exact (ih.1 _ hw).2 (List.mem_append_right _ (List.mem_singleton_self _))

/-- Marking a block that is not marked yet leaves fewer blocks unmarked. -/
theorem length_filter_not_marked_lt {copied new : List U} {metas : List (Meta U)} {b : Meta U}
    (hb : b ∈ metas.filter (·.ulid ∉ copied)) (hnew : b.ulid ∈ new) :
    (metas.filter (·.ulid ∉ copied ++ new)).length < (metas.filter (·.ulid ∉ copied)).length := by
  have heq : metas.filter (·.ulid ∉ copied ++ new) =
      (metas.filter (·.ulid ∉ copied)).filter (·.ulid ∉ new) := by
    rw [List.filter_filter]
    congr 1
    funext x
    simp only [List.mem_append, not_or, Bool.decide_and]
    exact Bool.and_comm _ _
  rw [heq, List.length_filter_lt_length_iff_exists]
  exact ⟨b, hb, by simpa using hnew⟩

end Marks

/-! ## The loops -/

section Loops

variable [DecidableEq U] [ToString U] (env : FilterEnv U) (metas : List (Meta U))

/-- A run of the size filter that returns a plan: the marks it made, each on the plan made
just before, and the plan, the planner's with those marks, with no running sum of index sizes
reaching the limit. -/
theorem largeTotalIndexSizeLoop_ok : ∀ (fuel : Nat) (copied marked : List U)
    (p : List (Meta U)) (ms : List U),
    largeTotalIndexSizeLoop env metas fuel copied marked = some (.ok (p, ms)) →
    ∃ new, ms = marked ++ new ∧ MarkedFromPlans env.ranges metas copied new ∧
      plan env.ranges (copied ++ new) metas = .ok p ∧
      indexSizeLoop env.attributes (indexSizeLimit env.totalMaxIndexSizeBytes) 0 0 (-2 ^ 63) 0 p =
        .ok none
  | 0, _, _, _, _, h => by cases h
  | fuel + 1, copied, marked, p, ms, h => by
    simp only [largeTotalIndexSizeLoop] at h
    cases hplan : plan env.ranges copied metas with
    | error err =>
      rw [hplan] at h
      cases h
    | panic msg =>
      rw [hplan] at h
      cases h
    | ok p₀ =>
      rw [hplan] at h
      dsimp only at h
      cases hsize : indexSizeLoop env.attributes (indexSizeLimit env.totalMaxIndexSizeBytes) 0 0
          (-2 ^ 63) 0 p₀ with
      | error err =>
        rw [hsize] at h
        cases h
      | ok found =>
        rw [hsize] at h
        cases found with
        | none =>
          cases h
          exact ⟨[], by simp, .nil _, by simpa using hplan, hsize⟩
        | some j =>
          dsimp only at h
          cases hget : p₀[j]? with
          | none =>
            rw [hget] at h
            cases h
          | some b =>
            rw [hget] at h
            dsimp only at h
            cases hmark : env.markForNoCompact b.ulid with
            | error err =>
              rw [hmark] at h
              cases h
            | ok u =>
              rw [hmark] at h
              obtain ⟨new, rfl, hmarks, hplan', hnone⟩ :=
                largeTotalIndexSizeLoop_ok fuel _ _ p ms h
              refine ⟨b.ulid :: new, by simp, .cons hplan ?_ hmarks, by simpa using hplan', hnone⟩
              exact List.mem_map_of_mem (List.mem_of_getElem? hget)

/-- The size filter ends within one round more than there are blocks left unmarked: each
round that goes on marks one of them. -/
theorem largeTotalIndexSizeLoop_isSome : ∀ (fuel : Nat) (copied marked : List U),
    (metas.filter (·.ulid ∉ copied)).length < fuel →
      (largeTotalIndexSizeLoop env metas fuel copied marked).isSome
  | 0, _, _, h => absurd h (Nat.not_lt_zero _)
  | fuel + 1, copied, marked, hfuel => by
    simp only [largeTotalIndexSizeLoop]
    cases hplan : plan env.ranges copied metas with
    | error err => rfl
    | panic msg => rfl
    | ok p₀ =>
      dsimp only
      cases indexSizeLoop env.attributes (indexSizeLimit env.totalMaxIndexSizeBytes) 0 0
          (-2 ^ 63) 0 p₀ with
      | error err => rfl
      | ok found =>
        cases found with
        | none => rfl
        | some j =>
          dsimp only
          cases hget : p₀[j]? with
          | none => rfl
          | some b =>
            dsimp only
            cases env.markForNoCompact b.ulid with
            | error err => rfl
            | ok u =>
              have hlt := length_filter_not_marked_lt (mem_of_plan hplan (List.mem_of_getElem? hget))
                (List.mem_singleton_self b.ulid)
              exact largeTotalIndexSizeLoop_isSome fuel _ _ (by omega)

/-- A block the size filter returns is a block of the input marked neither before nor by it. -/
theorem mem_of_largeTotalIndexSizePlan {inner : Nat} {vm : List U} {p : List (Meta U)}
    {ms : List U} (h : largeTotalIndexSizePlan env inner vm metas = some (.ok (p, ms)))
    {x : Meta U} (hx : x ∈ p) :
    x ∈ metas ∧ x.ulid ∉ env.noCompBlocks ∧ x.ulid ∉ vm ∧ x.ulid ∉ ms := by
  obtain ⟨new, hms, -, hplan, -⟩ := largeTotalIndexSizeLoop_ok env metas inner _ [] p ms h
  rw [List.nil_append] at hms
  subst ms
  have hx' := List.mem_filter.mp (mem_of_plan hplan hx)
  have hnot : x.ulid ∉ env.noCompBlocks ++ vm ++ new := by simpa using hx'.2
  simp only [List.mem_append, not_or] at hnot
  exact ⟨hx'.1, hnot.1.1, hnot.1.2, by simpa using hnot.2⟩

/-- A run of the vertical filter that returns a plan: the plan does not overlap or holds no
downsampled block, it is a plan of the size filter, so of the planner with some marks and
within the index size limit, and what it marked are blocks of the input marked before by no
one. -/
theorem verticalLoop_ok (inner : Nat) : ∀ (fuel : Nat) (vm marked : List U) (p : List (Meta U))
    (ms : List U), verticalLoop env inner metas fuel vm marked = some (.ok (p, ms)) →
    (selectOverlappingMetas p = [] ∨ ∀ m ∈ p, m.resolution = 0) ∧
      (∃ copied, plan env.ranges copied metas = .ok p ∧
        indexSizeLoop env.attributes (indexSizeLimit env.totalMaxIndexSizeBytes) 0 0 (-2 ^ 63) 0 p =
          .ok none) ∧
      ∀ u ∈ ms, u ∈ marked ∨ (u ∈ metas.map Meta.ulid ∧ u ∉ env.noCompBlocks)
  | 0, _, _, _, _, h => by cases h
  | fuel + 1, vm, marked, p, ms, h => by
    simp only [verticalLoop] at h
    cases hlt : largeTotalIndexSizePlan env inner vm metas with
    | none =>
      rw [hlt] at h
      cases h
    | some res =>
      rw [hlt] at h
      cases res with
      | error err => cases h
      | panic msg => cases h
      | ok res =>
        obtain ⟨p₀, inner₀⟩ := res
        obtain ⟨new, hinner, hmarks, hplan, hnone⟩ :=
          largeTotalIndexSizeLoop_ok env metas inner _ [] p₀ inner₀ hlt
        rw [List.nil_append] at hinner
        subst inner₀
        have hnew : ∀ u ∈ new, u ∈ metas.map Meta.ulid ∧ u ∉ env.noCompBlocks := by
          intro u hu
          obtain ⟨hu₁, hu₂⟩ := hmarks.fresh.1 u (by simpa using hu)
          exact ⟨hu₁, fun hc => hu₂ (List.mem_append_left _ hc)⟩
        have hms : ∀ u ∈ marked ++ new, u ∈ marked ∨
            (u ∈ metas.map Meta.ulid ∧ u ∉ env.noCompBlocks) := by
          intro u hu
          rcases List.mem_append.mp hu with hu | hu
          · exact .inl hu
          · exact .inr (hnew u hu)
        dsimp only at h
        by_cases hov : (selectOverlappingMetas p₀).length = 0
        · rw [if_pos hov] at h
          simp only [Option.some.injEq, Result.ok.injEq, Prod.mk.injEq] at h
          obtain ⟨rfl, rfl⟩ := h
          exact ⟨.inl (List.eq_nil_of_length_eq_zero hov), ⟨_, hplan, hnone⟩, hms⟩
        · rw [if_neg hov] at h
          cases hds : markDownsampled env p₀ with
          | error err =>
            rw [hds] at h
            cases h
          | ok ds =>
            rw [hds] at h
            have hds' := markDownsampled_ok env p₀ ds hds
            cases ds with
            | nil =>
              simp only [Option.some.injEq, Result.ok.injEq, Prod.mk.injEq] at h
              obtain ⟨rfl, rfl⟩ := h
              -- no block of the plan is downsampled
              refine ⟨.inr fun m hm => ?_, ⟨_, hplan, hnone⟩, hms⟩
              by_contra hres
              have : m.ulid ∈ (p₀.filter (·.resolution ≠ 0)).map Meta.ulid :=
                List.mem_map_of_mem (List.mem_filter.mpr ⟨hm, by simpa using hres⟩)
              rw [← hds'] at this
              exact List.not_mem_nil this
            | cons d ds =>
              obtain ⟨hover, hsize, hrest⟩ := verticalLoop_ok inner fuel _ _ p ms h
              refine ⟨hover, hsize, fun u hu => ?_⟩
              rcases hrest u hu with hu | hu
              · rcases List.mem_append.mp hu with hu | hu
                · exact hms u hu
                · -- a downsampled block of the plan
                  rw [hds'] at hu
                  obtain ⟨x, hx, rfl⟩ := List.mem_map.mp hu
                  obtain ⟨hx₁, hx₂, -⟩ := mem_of_largeTotalIndexSizePlan env metas hlt
                    (List.mem_filter.mp hx).1
                  exact .inr ⟨List.mem_map_of_mem hx₁, hx₂⟩
              · exact .inr hu

/-- The vertical filter ends within one round more than there are blocks it has not marked,
when each of its rounds plans through the size filter with more rounds than there are
blocks. -/
theorem verticalLoop_isSome {inner : Nat} (hinner : metas.length < inner) :
    ∀ (fuel : Nat) (vm marked : List U), (metas.filter (·.ulid ∉ vm)).length < fuel →
      (verticalLoop env inner metas fuel vm marked).isSome
  | 0, _, _, h => absurd h (Nat.not_lt_zero _)
  | fuel + 1, vm, marked, hfuel => by
    have hsome := largeTotalIndexSizeLoop_isSome env metas inner (env.noCompBlocks ++ vm) []
      (lt_of_le_of_lt (List.length_filter_le _ _) hinner)
    obtain ⟨res, hres⟩ := Option.isSome_iff_exists.mp hsome
    simp only [verticalLoop]
    have hlt : largeTotalIndexSizePlan env inner vm metas = some res := hres
    rw [hlt]
    rcases res with ⟨p₀, inner₀⟩ | err | msg
    · dsimp only
      by_cases hov : (selectOverlappingMetas p₀).length = 0
      · rw [if_pos hov]
        rfl
      · rw [if_neg hov]
        cases hds : markDownsampled env p₀ with
        | error err => rfl
        | ok ds =>
          cases ds with
          | nil => rfl
          | cons d ds =>
            dsimp only
            -- `d` is a block of the plan, so one not marked yet
            have hd : d ∈ (p₀.filter (·.resolution ≠ 0)).map Meta.ulid := by
              rw [← markDownsampled_ok env p₀ _ hds]
              exact List.mem_cons_self
            obtain ⟨x, hx, rfl⟩ := List.mem_map.mp hd
            obtain ⟨hx₁, -, hx₃, -⟩ :=
              mem_of_largeTotalIndexSizePlan env metas hlt (List.mem_filter.mp hx).1
            have hlt' : (metas.filter (·.ulid ∉ vm ++ x.ulid :: ds)).length <
                (metas.filter (·.ulid ∉ vm)).length :=
              length_filter_not_marked_lt (List.mem_filter.mpr ⟨hx₁, by simpa using hx₃⟩)
                List.mem_cons_self
            exact verticalLoop_isSome hinner fuel _ _ (by omega)
    · rfl
    · rfl

end Loops

/-- For any blocks, planner marks and sizes the bucket gives for indexes, the size filter and
the vertical filter end within one round more than there are blocks, each round of the
vertical filter planning through the size filter with as many. The size filter marks, one
after another, a block of the plan made just before, and returns the planner's plan with those
marks, whose running sums of index sizes all stay below 85% of the limit. The vertical filter
returns a plan of the planner, within the same limit, that does not overlap or holds no
downsampled block, and marks only blocks of the input that were not marked. -/
theorem filters_end_within_bound [DecidableEq U] [ToString U] (env : FilterEnv U) (metas : List (Meta U))
    (size : U → Int) (hattr : ∀ u, env.attributes u = .ok (size u)) :
    (∃ res, largeTotalIndexSizePlan env (metas.length + 1) [] metas = some res ∧
      ∀ p marks, res = .ok (p, marks) →
        MarkedFromPlans env.ranges metas env.noCompBlocks marks ∧
        plan env.ranges (env.noCompBlocks ++ marks) metas = .ok p ∧
        ∀ k, 0 < k → k ≤ p.length →
          ((p.take k).map (indexSizeWith size)).sum < indexSizeLimit env.totalMaxIndexSizeBytes) ∧
    (∃ res, verticalPlan env (metas.length + 1) (metas.length + 1) metas = some res ∧
      ∀ p marks, res = .ok (p, marks) →
        (selectOverlappingMetas p = [] ∨ ∀ m ∈ p, m.resolution = 0) ∧
        (∃ copied, plan env.ranges copied metas = .ok p) ∧
        (∀ k, 0 < k → k ≤ p.length →
          ((p.take k).map (indexSizeWith size)).sum < indexSizeLimit env.totalMaxIndexSizeBytes) ∧
        ∀ u ∈ marks, u ∈ metas.map Meta.ulid ∧ u ∉ env.noCompBlocks) := by
  have hsums : ∀ p : List (Meta U),
      indexSizeLoop env.attributes (indexSizeLimit env.totalMaxIndexSizeBytes) 0 0 (-2 ^ 63) 0 p =
        .ok none → ∀ k, 0 < k → k ≤ p.length →
          ((p.take k).map (indexSizeWith size)).sum < indexSizeLimit env.totalMaxIndexSizeBytes := by
    intro p hp k hk hkl
    simpa using indexSizeLoop_none (blockIndexSize_of_attributes hattr) p 0 0 _ 0 hp k hk hkl
  have hfew : (metas.filter (·.ulid ∉ env.noCompBlocks ++ [])).length < metas.length + 1 :=
    Nat.lt_succ_of_le (List.length_filter_le _ _)
  constructor
  · obtain ⟨res, hres⟩ := Option.isSome_iff_exists.mp
      (largeTotalIndexSizeLoop_isSome env metas _ _ [] hfew)
    refine ⟨res, hres, fun p marks hp => ?_⟩
    subst hp
    obtain ⟨new, hnew, hmarks, hplan, hnone⟩ :=
      largeTotalIndexSizeLoop_ok env metas _ _ [] p marks hres
    rw [List.nil_append] at hnew
    subst marks
    rw [List.append_nil] at hmarks hplan
    exact ⟨hmarks, hplan, hsums p hnone⟩
  · have hfew' : (metas.filter (·.ulid ∉ ([] : List U))).length < metas.length + 1 :=
      Nat.lt_succ_of_le (List.length_filter_le _ _)
    obtain ⟨res, hres⟩ := Option.isSome_iff_exists.mp
      (verticalLoop_isSome env metas (Nat.lt_succ_self _) _ [] [] hfew')
    refine ⟨res, hres, fun p marks hp => ?_⟩
    subst hp
    obtain ⟨hover, ⟨copied, hplan, hnone⟩, hmarks⟩ := verticalLoop_ok env metas _ _ [] [] p marks hres
    exact ⟨hover, ⟨copied, hplan⟩, hsums p hnone,
      fun u hu => (hmarks u hu).resolve_left List.not_mem_nil⟩

/-- Four blocks of 20 with indexes of 10 bytes each, and a limit that two indexes reach. -/
def fourBlocksEnv : FilterEnv Nat := ⟨[20, 60], [], fun _ => .ok 10, fun _ => .ok (), 20⟩

def fourBlocks : List (Meta Nat) :=
  [testMeta 1 0 20, testMeta 2 20 40, testMeta 3 40 60, testMeta 4 60 80]

-- the first block of the run `[0, 60]`, then the second of what is left, are marked, and
-- what remains is no run
example : largeTotalIndexSizePlan fourBlocksEnv 5 [] fourBlocks = some (.ok ([], [1, 2])) := by
  decide +kernel

end Thanos.Compact
