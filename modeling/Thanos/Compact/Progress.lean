import Thanos.Compact.Planner

/-! # The compaction progress simulation

`CompactionProgressCalculator.ProgressCalculate` simulates compaction: while groups are left,
it plans each group, and for a plan replaces its blocks by the one block
`tsdb.CompactBlockMetas` makes of them, counting the runs and the blocks planned per group
key; a group of one block or with nothing to plan drops out. The loop is unbounded in Go;
here it takes the passes it may run.

With merged blocks that carry no tombstones, every pass shrinks each group that stays by one
block, or by one block with many tombstones; the simulation ends within as many passes as the
groups have blocks and such blocks, counted twice and once (`progressCalculate_ends`), and a
group of `n` blocks records at most `n` runs more than runs of the tombstone rule. -/

namespace Thanos.Compact

open Thanos.Store.Cache

variable {U : Type}

/-- The fields of a `Group` `ProgressCalculate` uses. -/
structure Group (U : Type) where
  key : String
  metasByMinTime : List (Meta U)
  resolution : Int

/-- What the simulation sees: the planner's levels and marks, `tsdb.CompactBlockMetas`, the
ULID `ulid.MustNew` gives the `k`-th merged block, and `sort.Slice` by `MinTime`. -/
structure ProgressEnv (U : Type) where
  ranges : List Int
  noCompBlocks : List U
  compactBlockMetas : U → List (Meta U) → Meta U
  newULID : Nat → U
  sortSlice : List (Meta U) → List (Meta U)

section Simulation

variable [DecidableEq U]

/-- `Group.deleteFromGroup`. -/
def Group.deleteFromGroup (g : Group U) (target : List U) : Group U :=
  { g with metasByMinTime := g.metasByMinTime.filter (·.ulid ∉ target) }

/-- `Group.AppendMeta`: the block added and the blocks sorted again by their start. The
labels of the merged block are the group's. -/
def Group.appendMeta (sortSlice : List (Meta U) → List (Meta U)) (g : Group U) (m : Meta U) :
    Except String (Group U) :=
  if g.resolution ≠ m.resolution then .error "block and group resolution do not match"
  else .ok { g with metasByMinTime := sortSlice (g.metasByMinTime ++ [m]) }

/-- One pass of `ProgressCalculate`'s loop over the groups, the `k`-th merge next: the groups
kept for the next pass and the runs recorded, as the key and the number of blocks of each
plan. -/
def progressPass (env : ProgressEnv U) :
    List (Group U) → Nat → List (String × Nat) →
      Result (List (Group U) × Nat × List (String × Nat))
  | [], k, runs => .ok ([], k, runs)
  | g :: gs, k, runs =>
    if g.metasByMinTime.length = 1 then progressPass env gs k runs
    else
      match plan env.ranges env.noCompBlocks g.metasByMinTime with
      | .error err => .error ("could not plan: " ++ err)
      | .panic msg => .panic msg
      | .ok p =>
        if p.length = 0 then progressPass env gs k runs
        else
          let runs := runs ++ [(g.key, p.length)]
          let g := g.deleteFromGroup (p.map (·.ulid))
          if g.metasByMinTime.length = 0 then progressPass env gs k runs
          else
            let newMeta := { env.compactBlockMetas (env.newULID k) p with
              resolution := g.resolution, files := [] }
            match g.appendMeta env.sortSlice newMeta with
            | .error err => .error ("append meta: " ++ err)
            | .ok g =>
              (fun (r : List (Group U) × Nat × List (String × Nat)) => (g :: r.1, r.2)) <$>
                progressPass env gs (k + 1) runs

/-- The loop `for len(groups) > 0` of `ProgressCalculate`, for at most `fuel` passes: the runs
recorded, or `none` when the passes run out. -/
def progressLoop (env : ProgressEnv U) :
    Nat → List (Group U) → Nat → List (String × Nat) → Option (Result (List (String × Nat)))
  | 0, _, _, _ => none
  | fuel + 1, groups, k, runs =>
    if groups.length = 0 then some (.ok runs)
    else
      match progressPass env groups k runs with
      | .error err => some (.error err)
      | .panic msg => some (.panic msg)
      | .ok (groups, k, runs) => progressLoop env fuel groups k runs

/-- `groupCompactions[key]`: the runs recorded for `key`. -/
def groupCompactions (runs : List (String × Nat)) (key : String) : Nat :=
  (runs.filter (·.1 = key)).length

/-- `groupBlocks[key]`: the blocks planned for `key`. -/
def groupBlocks (runs : List (String × Nat)) (key : String) : Nat :=
  ((runs.filter (·.1 = key)).map Prod.snd).sum

/-- `ProgressCalculate`: the two gauges, the runs and the blocks planned over all keys. -/
def progressCalculate (env : ProgressEnv U) (fuel : Nat) (groups : List (Group U)) :
    Option (Result (Nat × Nat)) :=
  (fun r => (fun runs => (runs.length, (runs.map Prod.snd).sum)) <$> r) <$>
    progressLoop env fuel groups 0 []

end Simulation

/-! ## What is left to simulate -/

/-- The blocks the tombstone rule may pick. -/
def heavyCount (metas : List (Meta U)) : Nat := (metas.filter manyTombstones).length

/-- What is left to simulate of a group: its blocks counted twice, and once more those with
many tombstones. -/
def groupMeasure (g : Group U) : Nat := 2 * g.metasByMinTime.length + heavyCount g.metasByMinTime

/-- The blocks of the groups with key `key`. -/
def keyedSize (groups : List (Group U)) (key : String) : Nat :=
  ((groups.filter (·.key = key)).map (·.metasByMinTime.length)).sum

/-- The runs recorded for `key` that planned one block: the runs of the tombstone rule. -/
def tombstoneRuns (runs : List (String × Nat)) (key : String) : Nat :=
  (runs.filter fun r => r.1 = key ∧ r.2 = 1).length

section Counts

theorem groupCompactions_append (r₁ r₂ : List (String × Nat)) (key : String) :
    groupCompactions (r₁ ++ r₂) key = groupCompactions r₁ key + groupCompactions r₂ key := by
  simp [groupCompactions, List.filter_append]

theorem tombstoneRuns_append (r₁ r₂ : List (String × Nat)) (key : String) :
    tombstoneRuns (r₁ ++ r₂) key = tombstoneRuns r₁ key + tombstoneRuns r₂ key := by
  simp [tombstoneRuns, List.filter_append]

theorem groupCompactions_singleton (key key' : String) (n : Nat) :
    groupCompactions [(key', n)] key = if key' = key then 1 else 0 := by
  by_cases h : key' = key <;> simp [groupCompactions, h]

theorem tombstoneRuns_singleton (key key' : String) (n : Nat) :
    tombstoneRuns [(key', n)] key = if key' = key ∧ n = 1 then 1 else 0 := by
  by_cases h : key' = key ∧ n = 1 <;> simp [tombstoneRuns, h]

theorem keyedSize_cons (g : Group U) (gs : List (Group U)) (key : String) :
    keyedSize (g :: gs) key =
      (if g.key = key then g.metasByMinTime.length else 0) + keyedSize gs key := by
  by_cases h : g.key = key <;> simp [keyedSize, h]

/-- Deleting the planned blocks, a sublist of the group, removes at least as many blocks. -/
theorem length_filter_add_le [DecidableEq U] {metas p : List (Meta U)} (hp : p.Sublist metas) :
    (metas.filter (·.ulid ∉ p.map (·.ulid))).length + p.length ≤ metas.length := by
  have hrem : p.Sublist (metas.filter fun x => !decide (x.ulid ∉ p.map (·.ulid))) := by
    have := hp.filter fun x => !decide (x.ulid ∉ p.map (·.ulid))
    rwa [List.filter_eq_self.mpr fun x hx => by simpa using List.mem_map_of_mem hx] at this
  have hsplit := @List.length_eq_length_filter_add _ metas
    (fun x : Meta U => decide (x.ulid ∉ p.map (·.ulid)))
  have := hrem.length_le
  omega

theorem heavyCount_filter_le (metas : List (Meta U)) (q : Meta U → Bool) :
    heavyCount (metas.filter q) ≤ heavyCount metas := by
  unfold heavyCount
  rw [List.filter_comm]
  exact List.length_filter_le _ _

/-- Deleting a block with many tombstones leaves fewer of them. -/
theorem heavyCount_filter_lt {metas : List (Meta U)} {q : Meta U → Bool} {m : Meta U}
    (hm : m ∈ metas) (hheavy : manyTombstones m = true) (hq : q m = false) :
    heavyCount (metas.filter q) < heavyCount metas := by
  unfold heavyCount
  rw [List.filter_comm, List.length_filter_lt_length_iff_exists]
  exact ⟨m, List.mem_filter.mpr ⟨hm, hheavy⟩, by simp [hq]⟩

theorem manyTombstones_eq_false {m : Meta U} (h : m.numTombstones = 0) :
    manyTombstones m = false := by
  unfold manyTombstones
  rw [h]
  norm_num

end Counts

/-- What the simulation needs of its parameters: a merged block carries no tombstones, as
`tsdb.CompactBlockMetas` leaves its stats, and `sort.Slice` permutes. -/
structure ProgressEnv.Lawful (env : ProgressEnv U) : Prop where
  merged_clean : ∀ u ps, (env.compactBlockMetas u ps).numTombstones = 0
  sort_perm : ∀ l, (env.sortSlice l).Perm l

section Run

variable [DecidableEq U] {env : ProgressEnv U} {g : Group U} {p : List (Meta U)}

theorem ne_nil_of_plan {ranges : List Int} {marked : List U} {metas r : List (Meta U)}
    (h : plan ranges marked metas = .ok r) : metas ≠ [] := by
  rintro rfl
  simp [plan, selectOverlappingMetas] at h

/-- A run leaves the group at most its blocks but those planned. -/
theorem run_deletes (hplan : plan env.ranges env.noCompBlocks g.metasByMinTime = .ok p) :
    (g.deleteFromGroup (p.map (·.ulid))).metasByMinTime.length + p.length ≤
      g.metasByMinTime.length :=
  length_filter_add_le ((infix_of_plan hplan).sublist.trans List.filter_sublist)

/-- A run of the tombstone rule removes a block with many tombstones. -/
theorem run_heavy (hplan : plan env.ranges env.noCompBlocks g.metasByMinTime = .ok p) :
    heavyCount (g.deleteFromGroup (p.map (·.ulid))).metasByMinTime +
      (if p.length = 1 then 1 else 0) ≤ heavyCount g.metasByMinTime := by
  by_cases h1 : p.length = 1
  · obtain ⟨m, rfl⟩ := List.length_eq_one_iff.mp h1
    have hm := List.mem_of_mem_filter (mem_of_plan hplan (List.mem_singleton_self m))
    have := heavyCount_filter_lt hm (manyTombstones_of_plan hplan)
      (q := fun x => decide (x.ulid ∉ [m].map (·.ulid))) (by simp)
    simp only [Group.deleteFromGroup, if_pos h1]
    omega
  · simpa [Group.deleteFromGroup, if_neg h1] using heavyCount_filter_le g.metasByMinTime _

/-- The group a run keeps, with the merged block added: one block less, or as many with one
block of many tombstones less. -/
theorem run_keeps (hlaw : env.Lawful) {k : Nat} {g' : Group U}
    (hplan : plan env.ranges env.noCompBlocks g.metasByMinTime = .ok p) (hp : p.length ≠ 0)
    (happ : (g.deleteFromGroup (p.map (·.ulid))).appendMeta env.sortSlice
      { env.compactBlockMetas (env.newULID k) p with
        resolution := (g.deleteFromGroup (p.map (·.ulid))).resolution, files := [] } = .ok g') :
    g'.key = g.key ∧ groupMeasure g' + 1 ≤ groupMeasure g ∧
      1 + g'.metasByMinTime.length ≤
        g.metasByMinTime.length + (if p.length = 1 then 1 else 0) := by
  unfold Group.appendMeta at happ
  rw [if_neg (by simp)] at happ
  cases happ
  have hperm := hlaw.sort_perm ((g.deleteFromGroup (p.map (·.ulid))).metasByMinTime ++
    [{ env.compactBlockMetas (env.newULID k) p with
        resolution := (g.deleteFromGroup (p.map (·.ulid))).resolution, files := [] }])
  have hclean : manyTombstones { env.compactBlockMetas (env.newULID k) p with
      resolution := (g.deleteFromGroup (p.map (·.ulid))).resolution, files := [] } = false :=
    manyTombstones_eq_false (hlaw.merged_clean _ _)
  have hlen := hperm.length_eq
  have hheavy : heavyCount (env.sortSlice ((g.deleteFromGroup (p.map (·.ulid))).metasByMinTime ++
      [{ env.compactBlockMetas (env.newULID k) p with
        resolution := (g.deleteFromGroup (p.map (·.ulid))).resolution, files := [] }])) =
      heavyCount (g.deleteFromGroup (p.map (·.ulid))).metasByMinTime := by
    unfold heavyCount
    rw [(hperm.filter manyTombstones).length_eq, List.filter_append]
    simp [hclean]
  have hdel := run_deletes hplan
  have hrun := run_heavy hplan
  refine ⟨rfl, ?_, ?_⟩
  · unfold groupMeasure
    simp only [hheavy, hlen, List.length_append, List.length_singleton]
    split_ifs at hrun <;> omega
  · simp only [hlen, List.length_append, List.length_singleton]
    split_ifs <;> omega

end Run

/-! ## One pass and the whole loop -/

/-- What a pass over `groups` may leave: the groups `groups'` kept have lost at least one from
what is left to simulate per group, and each key records no more runs `new` than the blocks
its groups lose, apart from runs of the tombstone rule. -/
def PassBound (groups groups' : List (Group U)) (new : List (String × Nat)) : Prop :=
  (groups'.map groupMeasure).sum + groups.length ≤ (groups.map groupMeasure).sum ∧
    ∀ key, groupCompactions new key + keyedSize groups' key ≤
      keyedSize groups key + tombstoneRuns new key

namespace PassBound

variable {g g' : Group U} {gs gs' : List (Group U)} {new : List (String × Nat)}

theorem nil : PassBound ([] : List (Group U)) [] [] := by
  simp [PassBound, keyedSize, groupCompactions, tombstoneRuns]

/-- A group skipped drops out. -/
theorem skip (hg : g.metasByMinTime ≠ []) (h : PassBound gs gs' new) :
    PassBound (g :: gs) gs' new := by
  obtain ⟨hm, hk⟩ := h
  have : 0 < g.metasByMinTime.length := List.length_pos_iff.mpr hg
  refine ⟨?_, fun key => ?_⟩
  · simp only [List.map_cons, List.sum_cons, List.length_cons, groupMeasure]
    omega
  · have := hk key
    rw [keyedSize_cons]
    split_ifs <;> omega

/-- A group run whose blocks were all planned drops out. -/
theorem drop {n : Nat} (hn : n ≠ 0) (hg : n ≤ g.metasByMinTime.length)
    (h : PassBound gs gs' new) : PassBound (g :: gs) gs' ((g.key, n) :: new) := by
  obtain ⟨hm, hk⟩ := h
  refine ⟨?_, fun key => ?_⟩
  · simp only [List.map_cons, List.sum_cons, List.length_cons, groupMeasure]
    omega
  · have := hk key
    rw [keyedSize_cons, ← List.singleton_append, groupCompactions_append, tombstoneRuns_append,
      groupCompactions_singleton, tombstoneRuns_singleton]
    split_ifs <;> omega

/-- A group run and kept, as `run_keeps` leaves it. -/
theorem keep {n : Nat} (hkey : g'.key = g.key) (hm : groupMeasure g' + 1 ≤ groupMeasure g)
    (hc : 1 + g'.metasByMinTime.length ≤ g.metasByMinTime.length + (if n = 1 then 1 else 0))
    (h : PassBound gs gs' new) : PassBound (g :: gs) (g' :: gs') ((g.key, n) :: new) := by
  obtain ⟨hm', hk⟩ := h
  refine ⟨?_, fun key => ?_⟩
  · simp only [List.map_cons, List.sum_cons, List.length_cons]
    omega
  · have := hk key
    rw [keyedSize_cons, keyedSize_cons, hkey, ← List.singleton_append, groupCompactions_append,
      tombstoneRuns_append, groupCompactions_singleton, tombstoneRuns_singleton]
    by_cases hg : g.key = key <;> by_cases h1 : n = 1 <;> simp [hg, h1] at hc ⊢ <;> omega

end PassBound

theorem result_map_eq_ok {α β : Type} {f : α → β} {x : Result α} {b : β}
    (h : f <$> x = .ok b) : ∃ a, x = .ok a ∧ b = f a := by
  cases x with
  | ok a =>
    cases h
    exact ⟨a, rfl, rfl⟩
  | error e => cases h
  | panic m => cases h

section Loop

variable [DecidableEq U] {env : ProgressEnv U}

/-- One pass of `ProgressCalculate` appends its runs and keeps a `PassBound`. -/
theorem progressPass_ok (hlaw : env.Lawful) : ∀ (groups : List (Group U)) (k : Nat)
    (runs : List (String × Nat)) {groups' : List (Group U)} {k' : Nat}
    {runs' : List (String × Nat)}, progressPass env groups k runs = .ok (groups', k', runs') →
    ∃ new, runs' = runs ++ new ∧ PassBound groups groups' new
  | [], k, runs, groups', k', runs', h => by
    cases h
    exact ⟨[], by simp, PassBound.nil⟩
  | g :: gs, k, runs, groups', k', runs', h => by
    unfold progressPass at h
    by_cases h1 : g.metasByMinTime.length = 1
    · rw [if_pos h1] at h
      obtain ⟨new, rfl, hb⟩ := progressPass_ok hlaw gs k runs h
      exact ⟨new, rfl, hb.skip (List.ne_nil_of_length_pos (by omega))⟩
    rw [if_neg h1] at h
    split at h
    · cases h
    · cases h
    rename_i p hplan
    have hg := ne_nil_of_plan hplan
    by_cases h2 : p.length = 0
    · rw [if_pos h2] at h
      obtain ⟨new, rfl, hb⟩ := progressPass_ok hlaw gs k runs h
      exact ⟨new, rfl, hb.skip hg⟩
    rw [if_neg h2] at h
    dsimp only at h
    have hdel := run_deletes hplan
    by_cases h3 : (g.deleteFromGroup (p.map (·.ulid))).metasByMinTime.length = 0
    · -- every block of the group was planned
      rw [if_pos h3] at h
      obtain ⟨new, rfl, hb⟩ := progressPass_ok hlaw gs k _ h
      exact ⟨(g.key, p.length) :: new, by simp, hb.drop h2 (by omega)⟩
    rw [if_neg h3] at h
    split at h
    · cases h
    rename_i g' happ
    obtain ⟨⟨gs', k'', runs''⟩, hrest, heq⟩ := result_map_eq_ok h
    simp only [Prod.mk.injEq] at heq
    obtain ⟨rfl, rfl, rfl⟩ := heq
    obtain ⟨new, rfl, hb⟩ := progressPass_ok hlaw gs (k + 1) _ hrest
    obtain ⟨hkey, hm, hc⟩ := run_keeps hlaw hplan h2 happ
    exact ⟨(g.key, p.length) :: new, by simp, hb.keep hkey hm hc⟩

/-- The loop ends once its passes exceed what is left to simulate: each pass takes at least one
from it per group. -/
theorem progressLoop_isSome (hlaw : env.Lawful) : ∀ (fuel : Nat) (groups : List (Group U))
    (k : Nat) (runs : List (String × Nat)), (groups.map groupMeasure).sum < fuel →
    (progressLoop env fuel groups k runs).isSome
  | 0, _, _, _, h => absurd h (Nat.not_lt_zero _)
  | fuel + 1, groups, k, runs, h => by
    unfold progressLoop
    by_cases h0 : groups.length = 0
    · rw [if_pos h0]
      rfl
    rw [if_neg h0]
    split
    · rfl
    · rfl
    rename_i groups' k' runs' hpass
    obtain ⟨-, -, hm, -⟩ := progressPass_ok hlaw groups k runs hpass
    exact progressLoop_isSome hlaw fuel groups' k' runs' (by omega)

/-- Over the whole loop each key records no more runs than its groups have blocks, apart from
runs of the tombstone rule. -/
theorem progressLoop_ok (hlaw : env.Lawful) : ∀ (fuel : Nat) (groups : List (Group U))
    (k : Nat) (runs final : List (String × Nat)),
    progressLoop env fuel groups k runs = some (.ok final) →
    ∃ new, final = runs ++ new ∧
      ∀ key, groupCompactions new key ≤ keyedSize groups key + tombstoneRuns new key
  | 0, _, _, _, _, h => by cases h
  | fuel + 1, groups, k, runs, final, h => by
    unfold progressLoop at h
    by_cases h0 : groups.length = 0
    · rw [if_pos h0] at h
      cases h
      exact ⟨[], by simp, by simp [groupCompactions]⟩
    rw [if_neg h0] at h
    split at h
    · cases h
    · cases h
    rename_i groups' k' runs' hpass
    obtain ⟨new₁, rfl, -, hk₁⟩ := progressPass_ok hlaw groups k runs hpass
    obtain ⟨new₂, rfl, hk₂⟩ := progressLoop_ok hlaw fuel groups' k' _ final h
    refine ⟨new₁ ++ new₂, by simp, fun key => ?_⟩
    have h₁ := hk₁ key
    have h₂ := hk₂ key
    rw [groupCompactions_append, tombstoneRuns_append]
    omega

end Loop

theorem keyedSize_of_nodup {groups : List (Group U)} (hkeys : (groups.map (·.key)).Nodup)
    {g : Group U} (hg : g ∈ groups) : keyedSize groups g.key = g.metasByMinTime.length := by
  induction groups with
  | nil => cases hg
  | cons g₀ gs ih =>
    rw [List.map_cons, List.nodup_cons] at hkeys
    rw [keyedSize_cons]
    rcases List.mem_cons.mp hg with rfl | hg
    · have hnone : gs.filter (·.key = g.key) = [] :=
        List.filter_eq_nil_iff.mpr fun x hx hx' =>
          hkeys.1 (List.mem_map.mpr ⟨x, hx, of_decide_eq_true hx'⟩)
      simp [keyedSize, hnone]
    · have hne : g₀.key ≠ g.key := fun h => hkeys.1 (h ▸ List.mem_map_of_mem hg)
      simp [hne, ih hkeys.2 hg]

/-- `ProgressCalculate` ends within as many passes as its groups have blocks, counted twice,
and blocks with many tombstones; each group, its key its own, records at most as many runs as
it has blocks and runs of the tombstone rule. -/
theorem progressCalculate_ends [DecidableEq U] (env : ProgressEnv U) (hlaw : env.Lawful)
    (groups : List (Group U)) (hkeys : (groups.map (·.key)).Nodup) :
    (progressCalculate env ((groups.map groupMeasure).sum + 1) groups).isSome ∧
      ∀ runs, progressLoop env ((groups.map groupMeasure).sum + 1) groups 0 [] =
          some (.ok runs) →
        ∀ g ∈ groups, groupCompactions runs g.key ≤
          g.metasByMinTime.length + tombstoneRuns runs g.key := by
  refine ⟨?_, fun runs h g hg => ?_⟩
  · obtain ⟨res, hres⟩ := Option.isSome_iff_exists.mp
      (progressLoop_isSome hlaw _ groups 0 [] (Nat.lt_succ_self _))
    unfold progressCalculate
    rw [hres]
    rfl
  · obtain ⟨new, hnew, hk⟩ := progressLoop_ok hlaw _ groups 0 [] runs h
    rw [List.nil_append] at hnew
    subst hnew
    rw [← keyedSize_of_nodup hkeys hg]
    exact hk g.key

/-- Blocks merged into one spanning them, with no stats, and sorted by insertion. -/
def spanEnv : ProgressEnv Nat where
  ranges := [20, 60]
  noCompBlocks := []
  compactBlockMetas u ps :=
    ⟨u, (ps.map (·.minTime)).min?.getD 0, (ps.map (·.maxTime)).max?.getD 0, false, 0, 0, 0, []⟩
  newULID k := 100 + k
  sortSlice := List.insertionSort fun a b => a.minTime ≤ b.minTime

theorem spanEnv_lawful : spanEnv.Lawful where
  merged_clean _ _ := rfl
  sort_perm l := List.perm_insertionSort _ l

/-- A group of four blocks and one of a single block. -/
def twoGroups : List (Group Nat) :=
  [⟨"a", [testMeta 1 0 20, testMeta 2 20 40, testMeta 3 40 60, testMeta 4 60 80], 0⟩,
    ⟨"b", [testMeta 5 0 20], 0⟩]

theorem progressCalculate_ends_two_groups :
    spanEnv.Lawful ∧ (twoGroups.map (·.key)).Nodup ∧
      (progressCalculate spanEnv ((twoGroups.map groupMeasure).sum + 1) twoGroups).isSome :=
  ⟨spanEnv_lawful, by decide,
    (progressCalculate_ends spanEnv spanEnv_lawful twoGroups (by decide)).1⟩

-- the three oldest blocks of "a" fill a range of 60 and merge once; nothing is left to merge
example : progressLoop spanEnv 9 twoGroups 0 [] = some (.ok [("a", 3)]) := by
  decide +kernel

end Thanos.Compact
