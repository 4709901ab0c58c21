import Thanos.Lib.GreedyCover
import Mathlib.Data.List.Sort
import Mathlib.Data.List.Perm.Subperm
import Mathlib.Order.Basic

/-! # The duplicate-block filter of the block fetcher

`DefaultDeduplicateFilter.Filter` splits the block metas by compaction group, and a
worker per group sorts the group's blocks by number of sources, the most first, then by
ULID, and walks them: a block is a duplicate when a block it has kept has all its sources.
Under a mutex the worker then deletes its duplicates from the shared map and adds them to
`duplicateIDs`. The groups are disjoint, so the only thing the workers' interleaving
decides is the order of the groups in `duplicateIDs`; the model takes that order as an
argument.

The walk is `GreedyCover.keepUndominated` with a block dominating the blocks whose
sources it holds (`childLoop_eq`). Inclusion of sources is transitive and the sort is a
strict order, so the walk keeps exactly the blocks that no block of the group with at
least as many sources and a smaller ULID holds, or with more sources
(`mem_kept_sortMetas_iff`). -/

namespace Thanos.Block

open GreedyCover

/-- The fields of `metadata.Meta` the filter reads: the ULID, the group key of the Thanos
section and `Compaction.Sources`. -/
structure Meta (U : Type) where
  ulid : U
  groupKey : String
  sources : List U
  deriving DecidableEq, Repr

variable {U : Type} [LinearOrder U]

/-- `contains(s1, s2)`: every ULID of `s2` is one of `s1`. -/
def contains (s1 s2 : List U) : Bool :=
  s2.all fun a => s1.any fun e => compare a e == .eq

/-- The `less` of the `sort.Slice` in `filterGroup`: more sources first, then the smaller
ULID. -/
def metaLess (a b : Meta U) : Bool :=
  if a.sources.length = b.sources.length then compare a.ulid b.ulid == .lt
  else decide ((a.sources.length : Int) - b.sources.length > 0)

/-- `sort.Slice(metaSlice, less)`, by insertion. On blocks with distinct ULIDs `less` is a
strict total order, so every sort gives this order. -/
def sortMetas (metaSlice : List (Meta U)) : List (Meta U) :=
  metaSlice.insertionSort fun a b => metaLess b a = false

/-- The `childLoop` of `filterGroup`, with the covering set and the duplicates so far. -/
def childLoop : List (Meta U) → List (Meta U) → List U → List (Meta U) × List U
  | [], coveringSet, duplicates => (coveringSet, duplicates)
  | child :: metaSlice, coveringSet, duplicates =>
    if coveringSet.any (fun parent => contains parent.sources child.sources) then
      childLoop metaSlice coveringSet (duplicates ++ [child.ulid])
    else childLoop metaSlice (coveringSet ++ [child]) duplicates

/-- What `Filter` changes: the map of metas, `duplicateIDs`, and the `synced` gauge of
`duplicateMeta`. -/
structure DedupState (U : Type) where
  metas : List (Meta U)
  duplicateIDs : List U
  synced : Nat
  deriving DecidableEq, Repr

/-- The loop of `filterGroup` under the mutex. -/
def deleteDuplicates (st : DedupState U) : List U → DedupState U
  | [] => st
  | duplicate :: duplicates =>
    let duplicateIDs :=
      if st.metas.any (·.ulid == duplicate) then st.duplicateIDs ++ [duplicate]
      else st.duplicateIDs
    deleteDuplicates ⟨st.metas.filter (·.ulid != duplicate), duplicateIDs, st.synced + 1⟩
      duplicates

/-- `filterGroup`. -/
def filterGroup (st : DedupState U) (metaSlice : List (Meta U)) : DedupState U :=
  deleteDuplicates st (childLoop (sortMetas metaSlice) [] []).2

/-- `metasByCompactionGroup[groupKey]`: the metas of one group, in the order of the map's
iteration. -/
def metasByCompactionGroup (metas : List (Meta U)) (groupKey : String) : List (Meta U) :=
  metas.filter (·.groupKey == groupKey)

/-- `Filter`, with `order` the order in which the workers of the groups take the mutex:
`none` where no worker receives the groups and the first send blocks. -/
def filter (concurrency : Int) (metas : List (Meta U)) (order : List String) :
    Option (DedupState U) :=
  if concurrency ≤ 0 ∧ metas ≠ [] then none
  else some ((order.map (metasByCompactionGroup metas)).foldl filterGroup ⟨metas, [], 0⟩)

/-- The duplicates `childLoop` finds in a group. -/
def duplicatesOf (metaSlice : List (Meta U)) : List U :=
  (childLoop (sortMetas metaSlice) [] []).2

/-- A block dominates the blocks whose sources it holds. -/
def covers (parent child : Meta U) : Bool :=
  contains parent.sources child.sources

/-! ## The order and the walk of one group -/

section Group

theorem contains_iff (s1 s2 : List U) : contains s1 s2 = true ↔ s2 ⊆ s1 := by
  simp [contains, List.subset_def]

theorem covers_iff (parent child : Meta U) :
    covers parent child = true ↔ child.sources ⊆ parent.sources :=
  contains_iff _ _

/-- `childLoop` is the walk that keeps the blocks no kept block covers. -/
theorem childLoop_eq (l coveringSet dropped : List (Meta U)) :
    childLoop l coveringSet (dropped.map Meta.ulid) =
      ((keepUndominated covers l coveringSet dropped).1,
        (keepUndominated covers l coveringSet dropped).2.map Meta.ulid) := by
  induction l generalizing coveringSet dropped with
  | nil => rfl
  | cons child l ih =>
    simp only [childLoop, keepUndominated]
    by_cases h : (coveringSet.any fun parent => covers parent child) = true
    · have h' : (coveringSet.any fun parent => contains parent.sources child.sources) = true := h
      rw [if_pos h', if_pos h, ← ih]
      simp
    · have h' : ¬(coveringSet.any fun parent => contains parent.sources child.sources) = true := h
      rw [if_neg h', if_neg h]
      exact ih _ _

theorem duplicatesOf_eq (l : List (Meta U)) :
    duplicatesOf l = (dropped covers (sortMetas l)).map Meta.ulid := by
  have h := childLoop_eq (sortMetas l) [] []
  rw [List.map_nil] at h
  rw [duplicatesOf, h]
  rfl

theorem metaLess_iff (a b : Meta U) :
    metaLess a b = true ↔ b.sources.length < a.sources.length ∨
      (a.sources.length = b.sources.length ∧ a.ulid < b.ulid) := by
  unfold metaLess
  split
  · rename_i h
    simp [h, compare_lt_iff_lt]
  · rename_i h
    simp only [gt_iff_lt, decide_eq_true_eq, h, false_and, or_false]
    omega

theorem metaLess_asymm {a b : Meta U} (h : metaLess a b = true) : metaLess b a = false := by
  rw [metaLess_iff] at h
  by_contra h'
  rw [Bool.not_eq_false, metaLess_iff] at h'
  rcases h with h | ⟨hl, hu⟩ <;> rcases h' with h' | ⟨hl', hu'⟩
  all_goals first | omega | exact absurd hu (lt_asymm hu')

/-- Two blocks with different ULIDs are ordered one way or the other. -/
theorem metaLess_of_not {a b : Meta U} (hne : a.ulid ≠ b.ulid) (h : metaLess b a = false) :
    metaLess a b = true := by
  rw [metaLess_iff]
  rw [← Bool.not_eq_true, metaLess_iff] at h
  rcases lt_trichotomy b.sources.length a.sources.length with hl | hl | hl
  · exact .inl hl
  · exact .inr ⟨hl.symm, lt_of_le_of_ne (not_lt.mp fun hu => h (.inr ⟨hl, hu⟩)) hne⟩
  · exact absurd (.inl hl) h

/-- Not coming after is transitive: the order is lexicographic on the number of sources
and the ULID. -/
theorem metaLess_false_trans {a b c : Meta U} (hab : metaLess b a = false)
    (hbc : metaLess c b = false) : metaLess c a = false := by
  rw [← Bool.not_eq_true, metaLess_iff] at hab hbc ⊢
  rintro (h | ⟨hl, hu⟩)
  · rcases lt_trichotomy b.sources.length c.sources.length with h' | h' | h'
    · exact hbc (.inl h')
    · exact hab (.inl (by omega))
    · exact hab (.inl (by omega))
  · rcases lt_trichotomy a.sources.length b.sources.length with h' | h' | h'
    · exact hab (.inl h')
    · rcases lt_or_ge a.ulid b.ulid with hab' | hab'
      · exact hbc (.inr ⟨by omega, lt_of_lt_of_le hu (le_of_lt hab')⟩) |>.elim
      · rcases eq_or_lt_of_le hab' with heq | hlt
        · exact hbc (.inr ⟨by omega, heq ▸ hu⟩)
        · exact hab (.inr ⟨h'.symm, hlt⟩)
    · exact hbc (.inl (by omega))

theorem pairwise_sortMetas {l : List (Meta U)} (hl : (l.map Meta.ulid).Nodup) :
    (sortMetas l).Pairwise fun a b => metaLess a b = true := by
  have : Std.Total fun a b : Meta U => metaLess b a = false :=
    ⟨fun a b => by
      by_cases h : metaLess b a = true
      · exact .inr (metaLess_asymm h)
      · exact .inl (by simpa using h)⟩
  have : IsTrans (Meta U) fun a b => metaLess b a = false :=
    ⟨fun _ _ _ hab hbc => metaLess_false_trans hab hbc⟩
  have hsorted := List.pairwise_insertionSort (fun a b : Meta U => metaLess b a = false) l
  have hne : (sortMetas l).Pairwise fun a b => a.ulid ≠ b.ulid :=
    List.pairwise_map.mp (((List.perm_insertionSort _ l).map Meta.ulid).nodup_iff.mpr hl)
  exact (hsorted.and hne).imp fun h => metaLess_of_not h.2 h.1

private theorem length_le_of_subset {β : Type} {s t : List β} (hs : s.Nodup) (h : s ⊆ t) :
    s.length ≤ t.length :=
  (hs.subperm h).length_le

private theorem subset_of_length_le {β : Type} {s t : List β} (hs : s.Nodup) (h : s ⊆ t)
    (hlen : t.length ≤ s.length) : t ⊆ s :=
  ((hs.subperm h).perm_of_length_le hlen).symm.subset

/-- The walk over a sorted group keeps a block exactly when every block of the group that
holds its sources has the same sources and a ULID no smaller. -/
theorem mem_kept_sortMetas_iff {l : List (Meta U)} (hl : (l.map Meta.ulid).Nodup)
    (hsrc : ∀ m ∈ l, m.sources.Nodup) (m : Meta U) :
    m ∈ kept covers (sortMetas l) ↔
      m ∈ l ∧ ∀ m' ∈ l, m.sources ⊆ m'.sources → m'.sources ⊆ m.sources ∧ m.ulid ≤ m'.ulid := by
  have htrans : ∀ a b c : Meta U, covers a b = true → covers b c = true → covers a c = true := by
    intro a b c hab hbc
    rw [covers_iff] at hab hbc ⊢
    exact List.Subset.trans hbc hab
  have hasymm : ∀ a b : Meta U, metaLess a b = true → ¬metaLess b a = true := by
    intro a b h h'
    simp [metaLess_asymm h] at h'
  rw [mem_kept_iff htrans hasymm (pairwise_sortMetas hl), sortMetas, List.mem_insertionSort]
  refine and_congr_right fun hm => ?_
  simp only [List.mem_insertionSort]
  constructor
  · intro hnot m' hm' hsub
    by_cases heq : m' = m
    · subst heq
      exact ⟨List.Subset.refl _, le_refl _⟩
    · -- `m'` does not come before `m`, and holding `m`'s sources it has no fewer of them
      have hne : m.ulid ≠ m'.ulid := fun h => heq (List.inj_on_of_nodup_map hl hm' hm h.symm)
      have hnotlt : metaLess m' m = false := by
        by_contra h
        have := hnot m' hm' (by simpa using h)
        rw [← Bool.not_eq_true, covers_iff] at this
        exact this hsub
      have hle := length_le_of_subset (hsrc m hm) hsub
      rcases (metaLess_iff m m').mp (metaLess_of_not hne hnotlt) with hgt | ⟨hlen, hult⟩
      · omega
      · exact ⟨subset_of_length_le (hsrc m hm) hsub (by omega), le_of_lt hult⟩
  · intro hall m' hm' hlt
    rw [← Bool.not_eq_true, covers_iff]
    intro hsub
    obtain ⟨hsub', hule⟩ := hall m' hm' hsub
    have h1 := length_le_of_subset (hsrc m hm) hsub
    have h2 := length_le_of_subset (hsrc m' hm') hsub'
    rcases (metaLess_iff m' m).mp hlt with hgt | ⟨-, hult⟩
    · omega
    · exact absurd hule (not_le.mpr hult)

end Group

/-! ## The deletions under the mutex -/

section Run

/-- The loop under the mutex deletes the duplicates and lists them, when they are distinct
blocks of the map. -/
theorem deleteDuplicates_eq (st : DedupState U) (ds : List U) (hds : ds.Nodup)
    (hin : ∀ d ∈ ds, ∃ m ∈ st.metas, m.ulid = d) :
    deleteDuplicates st ds =
      ⟨st.metas.filter (fun m => m.ulid ∉ ds), st.duplicateIDs ++ ds, st.synced + ds.length⟩ := by
  induction ds generalizing st with
  | nil => simp [deleteDuplicates]
  | cons d ds ih =>
    rw [List.nodup_cons] at hds
    have hany : st.metas.any (·.ulid == d) = true := by
      obtain ⟨m, hm, hmd⟩ := hin d List.mem_cons_self
      exact List.any_eq_true.mpr ⟨m, hm, by simp [hmd]⟩
    have hin' : ∀ d' ∈ ds, ∃ m ∈ st.metas.filter (·.ulid != d), m.ulid = d' := by
      intro d' hd'
      obtain ⟨m, hm, rfl⟩ := hin d' (List.mem_cons_of_mem d hd')
      have hne : m.ulid ≠ d := fun h => hds.1 (h ▸ hd')
      exact ⟨m, List.mem_filter.mpr ⟨hm, by simpa using hne⟩, rfl⟩
    rw [deleteDuplicates, if_pos hany, ih _ hds.2 hin']
    simp only [List.filter_filter, DedupState.mk.injEq, List.append_assoc, List.singleton_append,
      List.length_cons]
    refine ⟨List.filter_congr fun m _ => ?_, trivial, by omega⟩
    by_cases h1 : m.ulid = d <;> by_cases h2 : m.ulid ∈ ds <;> simp [h1, h2]

/-- A group's duplicates are distinct blocks of the group, the ones its walk drops. -/
theorem mem_duplicatesOf_iff {l : List (Meta U)} (hl : (l.map Meta.ulid).Nodup) (u : U) :
    u ∈ duplicatesOf l ↔ ∃ m ∈ l, m.ulid = u ∧ m ∉ kept covers (sortMetas l) := by
  have hperm := (perm_kept_append_dropped covers (sortMetas l)).trans (List.perm_insertionSort _ l)
  have hnodup : (kept covers (sortMetas l) ++ dropped covers (sortMetas l)).Nodup :=
    (hperm.nodup_iff.mpr (List.Nodup.of_map Meta.ulid hl))
  rw [duplicatesOf_eq, List.mem_map]
  constructor
  · rintro ⟨m, hm, rfl⟩
    refine ⟨m, hperm.subset (List.mem_append_right _ hm), rfl, fun hk => ?_⟩
    exact List.disjoint_of_nodup_append hnodup hk hm
  · rintro ⟨m, hm, rfl, hk⟩
    rcases List.mem_append.mp (hperm.symm.subset hm) with hm' | hm'
    · exact absurd hm' hk
    · exact ⟨m, hm', rfl⟩

theorem nodup_duplicatesOf {l : List (Meta U)} (hl : (l.map Meta.ulid).Nodup) :
    (duplicatesOf l).Nodup := by
  have hperm := (perm_kept_append_dropped covers (sortMetas l)).trans (List.perm_insertionSort _ l)
  have h := (hperm.map Meta.ulid).nodup_iff.mpr hl
  rw [List.map_append, List.nodup_append] at h
  rw [duplicatesOf_eq]
  exact h.2.1

variable {metas : List (Meta U)}

omit [LinearOrder U] in
theorem nodup_map_ulid_group (hids : (metas.map Meta.ulid).Nodup) (k : String) :
    ((metasByCompactionGroup metas k).map Meta.ulid).Nodup :=
  hids.sublist (List.filter_sublist.map Meta.ulid)

/-- The run over the groups: each group deletes its own duplicates, which no other group
touches. -/
theorem foldl_filterGroup (hids : (metas.map Meta.ulid).Nodup) (ks : List String)
    (hks : ks.Nodup) (pre ids : List U) (n : Nat)
    (hpre : ∀ u ∈ pre, ∀ m ∈ metas, m.ulid = u → m.groupKey ∉ ks) :
    (ks.map (metasByCompactionGroup metas)).foldl filterGroup
        ⟨metas.filter (fun m => m.ulid ∉ pre), ids, n⟩ =
      ⟨metas.filter (fun m => m.ulid ∉ pre ++ ks.flatMap (duplicatesOf ∘ metasByCompactionGroup metas)),
        ids ++ ks.flatMap (duplicatesOf ∘ metasByCompactionGroup metas),
        n + (ks.flatMap (duplicatesOf ∘ metasByCompactionGroup metas)).length⟩ := by
  induction ks generalizing pre ids n with
  | nil => simp
  | cons k ks ih =>
    rw [List.nodup_cons] at hks
    have hdups := nodup_duplicatesOf (nodup_map_ulid_group hids k)
    have hgroup : ∀ u ∈ duplicatesOf (metasByCompactionGroup metas k),
        ∃ m ∈ metas, m.ulid = u ∧ m.groupKey = k := by
      intro u hu
      obtain ⟨m, hm, rfl, -⟩ := (mem_duplicatesOf_iff (nodup_map_ulid_group hids k) u).mp hu
      obtain ⟨hm, hk⟩ := List.mem_filter.mp hm
      exact ⟨m, hm, rfl, by simpa using hk⟩
    have hin : ∀ u ∈ duplicatesOf (metasByCompactionGroup metas k),
        ∃ m ∈ metas.filter (fun m => m.ulid ∉ pre), m.ulid = u := by
      intro u hu
      obtain ⟨m, hm, rfl, hk⟩ := hgroup u hu
      refine ⟨m, List.mem_filter.mpr ⟨hm, ?_⟩, rfl⟩
      simpa using fun h => hpre m.ulid h m hm rfl (hk ▸ List.mem_cons_self)
    rw [List.map_cons, List.foldl_cons, filterGroup, ← duplicatesOf,
      deleteDuplicates_eq _ _ hdups hin]
    simp only
    rw [List.filter_filter]
    have hpre' : ∀ u ∈ pre ++ duplicatesOf (metasByCompactionGroup metas k), ∀ m ∈ metas,
        m.ulid = u → m.groupKey ∉ ks := by
      intro u hu m hm hmu
      rcases List.mem_append.mp hu with hu | hu
      · exact fun h => hpre u hu m hm hmu (List.mem_cons_of_mem k h)
      · obtain ⟨m', hm', hmu', hk⟩ := hgroup u hu
        obtain rfl : m = m' := List.inj_on_of_nodup_map hids hm hm' (hmu.trans hmu'.symm)
        exact hk ▸ hks.1
    have h := ih hks.2 (pre ++ duplicatesOf (metasByCompactionGroup metas k))
      (ids ++ duplicatesOf (metasByCompactionGroup metas k))
      (n + (duplicatesOf (metasByCompactionGroup metas k)).length) hpre'
    rw [show (metas.filter fun m => decide (m.ulid ∉ duplicatesOf (metasByCompactionGroup metas k))
        && decide (m.ulid ∉ pre)) = metas.filter (fun m => m.ulid ∉ pre ++
          duplicatesOf (metasByCompactionGroup metas k)) from
      List.filter_congr fun m _ => by simp [Bool.and_comm], h]
    simp only [List.flatMap_cons, Function.comp_apply, List.append_assoc, List.length_append,
      DedupState.mk.injEq, true_and]
    omega

end Run

/-! ## The filter over every group -/

section Filter

/-- An order in which the workers can take the mutex: every group key, once. -/
structure GroupOrder (metas : List (Meta U)) (order : List String) : Prop where
  nodup : order.Nodup
  mem : ∀ k, k ∈ order ↔ ∃ m ∈ metas, m.groupKey = k

variable {metas : List (Meta U)} {order : List String}

/-- The duplicates of all groups, in the order the workers took the mutex. -/
def allDuplicates (metas : List (Meta U)) (order : List String) : List U :=
  order.flatMap (duplicatesOf ∘ metasByCompactionGroup metas)

theorem filter_eq (hids : (metas.map Meta.ulid).Nodup) (horder : GroupOrder metas order)
    {concurrency : Int} (hc : 0 < concurrency) :
    filter concurrency metas order =
      some ⟨metas.filter (fun m => m.ulid ∉ allDuplicates metas order),
        allDuplicates metas order, (allDuplicates metas order).length⟩ := by
  have hrun := foldl_filterGroup hids order horder.nodup [] [] 0 (by simp)
  simp only [List.not_mem_nil, not_false_eq_true, decide_true, List.filter_true,
    List.nil_append, Nat.zero_add] at hrun
  rw [filter, if_neg (by omega), hrun]
  rfl

/-- A block is listed as a duplicate exactly when the walk of its own group drops it. -/
theorem mem_allDuplicates_iff (hids : (metas.map Meta.ulid).Nodup)
    (horder : GroupOrder metas order) {m : Meta U} (hm : m ∈ metas) :
    m.ulid ∈ allDuplicates metas order ↔
      m ∉ kept covers (sortMetas (metasByCompactionGroup metas m.groupKey)) := by
  have hgroup : m ∈ metasByCompactionGroup metas m.groupKey := List.mem_filter.mpr ⟨hm, by simp⟩
  rw [allDuplicates, List.mem_flatMap]
  constructor
  · rintro ⟨k, -, hk⟩
    obtain ⟨m', hm', hu, hkept⟩ :=
      (mem_duplicatesOf_iff (nodup_map_ulid_group hids k) m.ulid).mp hk
    obtain ⟨hm'', hkey⟩ := List.mem_filter.mp hm'
    obtain rfl : m' = m := List.inj_on_of_nodup_map hids hm'' hm hu
    obtain rfl : m'.groupKey = k := by simpa using hkey
    exact hkept
  · intro hkept
    exact ⟨m.groupKey, (horder.mem _).mpr ⟨m, hm, rfl⟩,
      (mem_duplicatesOf_iff (nodup_map_ulid_group hids _) m.ulid).mpr ⟨m, hgroup, rfl, hkept⟩⟩

/-- The blocks the filter keeps: those that every block of their group holding their
sources has the same sources and a ULID no smaller. -/
theorem not_mem_allDuplicates_iff (hids : (metas.map Meta.ulid).Nodup)
    (hsrc : ∀ m ∈ metas, m.sources.Nodup) (horder : GroupOrder metas order) {m : Meta U}
    (hm : m ∈ metas) :
    m.ulid ∉ allDuplicates metas order ↔
      ∀ m' ∈ metas, m'.groupKey = m.groupKey → m.sources ⊆ m'.sources →
        m'.sources ⊆ m.sources ∧ m.ulid ≤ m'.ulid := by
  have hgroup : m ∈ metasByCompactionGroup metas m.groupKey := List.mem_filter.mpr ⟨hm, by simp⟩
  have hsrc' : ∀ m' ∈ metasByCompactionGroup metas m.groupKey, m'.sources.Nodup :=
    fun m' hm' => hsrc m' (List.mem_filter.mp hm').1
  rw [mem_allDuplicates_iff hids horder hm, not_not,
    mem_kept_sortMetas_iff (nodup_map_ulid_group hids _) hsrc', and_iff_right hgroup]
  simp only [metasByCompactionGroup, List.mem_filter, beq_iff_eq, and_imp]

/-- A block listed as a duplicate is covered by a block of its group that is not. -/
theorem exists_cover_of_mem_allDuplicates (hids : (metas.map Meta.ulid).Nodup)
    (horder : GroupOrder metas order) {m : Meta U} (hm : m ∈ metas)
    (hdup : m.ulid ∈ allDuplicates metas order) :
    ∃ p ∈ metas, p.ulid ∉ allDuplicates metas order ∧ p.groupKey = m.groupKey ∧
      m.sources ⊆ p.sources := by
  have hgroup : m ∈ metasByCompactionGroup metas m.groupKey := List.mem_filter.mpr ⟨hm, by simp⟩
  have hperm := (perm_kept_append_dropped covers (sortMetas (metasByCompactionGroup metas m.groupKey))).trans
    (List.perm_insertionSort _ _)
  have hkept := (mem_allDuplicates_iff hids horder hm).mp hdup
  -- dropped by its group's walk, so a block the walk keeps covers it
  have hdropped : m ∈ dropped covers (sortMetas (metasByCompactionGroup metas m.groupKey)) := by
    rcases List.mem_append.mp (hperm.symm.subset hgroup) with h | h
    · exact absurd h hkept
    · exact h
  obtain ⟨p, hp, hcov⟩ := exists_kept_of_mem_dropped covers hdropped
  have hpgroup := (List.mem_insertionSort _).mp (kept_sublist covers _ hp)
  obtain ⟨hpm, hpkey⟩ := List.mem_filter.mp hpgroup
  have hkey : p.groupKey = m.groupKey := by simpa using hpkey
  refine ⟨p, hpm, ?_, hkey, (covers_iff p m).mp hcov⟩
  rw [mem_allDuplicates_iff hids horder hpm, hkey, not_not]
  exact hp

theorem mem_allDuplicates_imp (hids : (metas.map Meta.ulid).Nodup) {u : U}
    (hu : u ∈ allDuplicates metas order) : ∃ m ∈ metas, m.ulid = u := by
  obtain ⟨k, -, hk⟩ := List.mem_flatMap.mp hu
  obtain ⟨m, hm, rfl, -⟩ := (mem_duplicatesOf_iff (nodup_map_ulid_group hids k) u).mp hk
  exact ⟨m, (List.mem_filter.mp hm).1, rfl⟩

/-- Every duplicate is listed once: the groups' duplicates are distinct and the groups are
disjoint. -/
theorem nodup_allDuplicates (hids : (metas.map Meta.ulid).Nodup)
    (horder : GroupOrder metas order) : (allDuplicates metas order).Nodup := by
  rw [allDuplicates, List.nodup_flatMap]
  refine ⟨fun k _ => nodup_duplicatesOf (nodup_map_ulid_group hids k), ?_⟩
  refine horder.nodup.imp fun {k k'} hne => ?_
  -- a duplicate of two groups would be one block with two group keys
  intro u hu hu'
  obtain ⟨m, hm, rfl, -⟩ := (mem_duplicatesOf_iff (nodup_map_ulid_group hids k) u).mp hu
  obtain ⟨m', hm', hmu, -⟩ := (mem_duplicatesOf_iff (nodup_map_ulid_group hids k') _).mp hu'
  obtain ⟨hm, hk⟩ := List.mem_filter.mp hm
  obtain ⟨hm', hk'⟩ := List.mem_filter.mp hm'
  obtain rfl : m' = m := List.inj_on_of_nodup_map hids hm' hm hmu
  exact hne ((beq_iff_eq.mp hk).symm.trans (beq_iff_eq.mp hk'))

end Filter

/-- What `Filter` leaves, with at least one worker and the groups taking the mutex in any
order: only blocks of the map; a block is gone only when a block of its group that stays
holds all its sources; no block that stays holds the sources of another of its group; a
block stays exactly when every block of its group holding its sources has the same sources
and a ULID no smaller; and `DuplicateIDs` lists each block that is gone, once. -/
theorem filter_keeps_covering_blocks (concurrency : Int) (hc : 1 ≤ concurrency)
    (metas : List (Meta U)) (hids : (metas.map Meta.ulid).Nodup)
    (hsrc : ∀ m ∈ metas, m.sources.Nodup) (order : List String)
    (horder : GroupOrder metas order) :
    ∃ st, filter concurrency metas order = some st ∧
      (∀ p ∈ st.metas, p ∈ metas) ∧
      (∀ m ∈ metas, m ∉ st.metas →
        ∃ p ∈ st.metas, p.groupKey = m.groupKey ∧ m.sources ⊆ p.sources) ∧
      (∀ p ∈ st.metas, ∀ q ∈ st.metas, p ≠ q → p.groupKey = q.groupKey →
        ¬p.sources ⊆ q.sources) ∧
      (∀ m ∈ metas, m ∈ st.metas ↔
        ∀ m' ∈ metas, m'.groupKey = m.groupKey → m.sources ⊆ m'.sources →
          m'.sources ⊆ m.sources ∧ m.ulid ≤ m'.ulid) ∧
      st.duplicateIDs.Nodup ∧
      (∀ u, u ∈ st.duplicateIDs ↔ ∃ m ∈ metas, m.ulid = u ∧ m ∉ st.metas) := by
  refine ⟨_, filter_eq hids horder (by omega), ?_⟩
  have hstay : ∀ m ∈ metas, m ∈ metas.filter (fun m => m.ulid ∉ allDuplicates metas order) ↔
      m.ulid ∉ allDuplicates metas order := by
    intro m hm
    simp [hm]
  have hkeep := fun m (hm : m ∈ metas) => not_mem_allDuplicates_iff hids hsrc horder hm
  refine ⟨fun p hp => (List.mem_filter.mp hp).1, ?gone, ?antichain, ?keeps, ?nodup, ?listed⟩
  case gone =>
    intro m hm hgone
    have hdup : m.ulid ∈ allDuplicates metas order := by
      by_contra h
      exact hgone ((hstay m hm).mpr h)
    obtain ⟨p, hpm, hp, hkey, hsub⟩ := exists_cover_of_mem_allDuplicates hids horder hm hdup
    exact ⟨p, (hstay p hpm).mpr hp, hkey, hsub⟩
  case antichain =>
    intro p hp q hq hne hkey hsub
    obtain ⟨hpm, hpd⟩ := List.mem_filter.mp hp
    obtain ⟨hqm, hqd⟩ := List.mem_filter.mp hq
    -- each holds the other's sources, so their ULIDs are equal
    obtain ⟨hsub', hle⟩ := (hkeep p hpm).mp (by simpa using hpd) q hqm hkey.symm hsub
    obtain ⟨-, hle'⟩ := (hkeep q hqm).mp (by simpa using hqd) p hpm hkey hsub'
    exact hne (List.inj_on_of_nodup_map hids hpm hqm (le_antisymm hle hle'))
  case keeps =>
    intro m hm
    rw [hstay m hm]
    exact hkeep m hm
  case nodup => exact nodup_allDuplicates hids horder
  case listed =>
    intro u
    constructor
    · intro hu
      obtain ⟨m, hm, rfl⟩ := mem_allDuplicates_imp hids hu
      exact ⟨m, hm, rfl, fun h => (hstay m hm).mp h hu⟩
    · rintro ⟨m, hm, rfl, hgone⟩
      by_contra h
      exact hgone ((hstay m hm).mpr h)

/-- Three blocks of one group, with the sources `{1, 2}`, `{1}` and `{1}`. -/
theorem filter_keeps_covering_blocks_three_blocks :
    (([⟨1, "g", [1, 2]⟩, ⟨2, "g", [1]⟩, ⟨3, "g", [1]⟩] : List (Meta Nat)).map Meta.ulid).Nodup ∧
      GroupOrder ([⟨1, "g", [1, 2]⟩, ⟨2, "g", [1]⟩, ⟨3, "g", [1]⟩] : List (Meta Nat)) ["g"] ∧
      ∃ st, filter 2 ([⟨1, "g", [1, 2]⟩, ⟨2, "g", [1]⟩, ⟨3, "g", [1]⟩] : List (Meta Nat)) ["g"] =
        some st := by
  have horder : GroupOrder ([⟨1, "g", [1, 2]⟩, ⟨2, "g", [1]⟩, ⟨3, "g", [1]⟩] : List (Meta Nat))
      ["g"] :=
    ⟨by decide, fun k => by simp [eq_comm]⟩
  obtain ⟨st, hst, -⟩ := filter_keeps_covering_blocks 2 (by decide) _ (by decide) (by decide)
    ["g"] horder
  exact ⟨by decide, horder, st, hst⟩

/-- Two blocks with the same sources under a block with more: neither stays. -/
theorem filter_drops_equal_sources_under_larger_block :
    filter 1 ([⟨1, "g", [1, 2]⟩, ⟨2, "g", [1]⟩, ⟨3, "g", [1]⟩] : List (Meta Nat)) ["g"] =
      some ⟨[⟨1, "g", [1, 2]⟩], [2, 3], 2⟩ := by
  decide

end Thanos.Block
