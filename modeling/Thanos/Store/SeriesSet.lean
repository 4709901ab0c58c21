import Thanos.Store.StorePB
import Thanos.Lib.SortedMerge

/-! # Merging series sets

`MergeSeriesSets` merges series sets, each sorted by labels, into one: a balanced
binary tree of `mergedSeriesSet` nodes over one `uniqueSeriesSet` per input. A
`uniqueSeriesSet` joins the consecutive frames of its input that have the same
labels, chunks in order. A `mergedSeriesSet` looks one frame ahead in each child and
gives the one with the smaller labels first; on equal labels it merges the two
chunk lists, dropping from the second a chunk that compares equal
(`AggrChunk.Compare`) to the first's.

An input set is the list of frames, a label set and its chunks, it has still to
give. `Err` is not modelled: no set here fails. A set is a value, so the Go slices
shared between a set and the frames it gave are not modelled either.

What a set still gives is `SeriesSet.rest`, and each `Next` gives its head
(`after_next`). The rest of `MergeSeriesSets` is `mergeAll`, the same tree of
merges on lists (`rest_mergeSeriesSets`), which is sorted and holds every input
label set and chunk (`sortedUnion_mergeAll`). -/

namespace Thanos.Store

/-- What `SeriesSet.At` gives: a label set and its chunks. -/
abbrev Frame := List ZLabel × List AggrChunk

/-- The chunk loop of `mergedSeriesSet.Next` on a series both sets hold: the chunks
`chksA[a:]` against `chksB[b:]`. A chunk of `b` equal to the current one of `a` is
dropped. -/
def mergeChunks : List AggrChunk → List AggrChunk → List AggrChunk
  | [], chksB => chksB
  | a :: chksA, [] => a :: chksA
  | a :: chksA, b :: chksB =>
    if a.compare b > 0 then a :: mergeChunks chksA (b :: chksB)
    else if a.compare b < 0 then b :: mergeChunks (a :: chksA) chksB
    else mergeChunks (a :: chksA) chksB
termination_by chksA chksB => chksA.length + chksB.length

/-- `uniqueSeriesSet`, its wrapped set as the frames it has still to give. -/
structure UniqueSeriesSet where
  wrapped : List Frame
  done : Bool
  peek : Option Frame
  lset : List ZLabel
  chunks : List AggrChunk
  deriving DecidableEq, Repr

/-- The end of `uniqueSeriesSet.Next` once its wrapped set is done. -/
def UniqueSeriesSet.finish (s : UniqueSeriesSet) : Bool × UniqueSeriesSet :=
  match s.peek with
  | none => (false, s)
  | some p => (true, { s with lset := p.1, chunks := p.2, peek := none })

/-- `uniqueSeriesSet.Next`: the loop reads frames into `peek` until one with other
labels comes, or the wrapped set is done. -/
def UniqueSeriesSet.next : UniqueSeriesSet → Bool × UniqueSeriesSet
  | s@⟨_, true, _, _, _⟩ => s.finish
  | s@⟨[], false, _, _, _⟩ => { s with done := true }.finish
  | ⟨f :: fs, false, none, lset, chunks⟩ => UniqueSeriesSet.next ⟨fs, false, some f, lset, chunks⟩
  | ⟨f :: fs, false, some p, lset, chunks⟩ =>
    if labelsCompare f.1 p.1 ≠ 0 then (true, ⟨fs, false, some f, p.1, p.2⟩)
    else UniqueSeriesSet.next ⟨fs, false, some (p.1, p.2 ++ f.2), lset, chunks⟩
termination_by s => s.wrapped.length

/-- A `SeriesSet` of `MergeSeriesSets`: the empty set, a `uniqueSeriesSet` or a
`mergedSeriesSet`. -/
inductive SeriesSet where
  | empty
  | unique (s : UniqueSeriesSet)
  | merged (a b : SeriesSet) (lset : List ZLabel) (chunks : List AggrChunk) (adone bdone : Bool)
  deriving DecidableEq, Repr

def SeriesSet.at : SeriesSet → Frame
  | empty => ([], [])
  | unique s => (s.lset, s.chunks)
  | merged _ _ lset chunks _ _ => (lset, chunks)

namespace SeriesSet

/-- `mergedSeriesSet.compare`: a done child counts as the larger. -/
def mergedCompare (a b : SeriesSet) (adone bdone : Bool) : Int :=
  if adone then 1 else if bdone then -1 else labelsCompare a.at.1 b.at.1

def next : SeriesSet → Bool × SeriesSet
  | empty => (false, empty)
  | unique s => ((UniqueSeriesSet.next s).1, unique (UniqueSeriesSet.next s).2)
  | merged a b lset chunks adone bdone =>
    if adone && bdone then (false, merged a b lset chunks adone bdone)
    else
      let d := mergedCompare a b adone bdone
      if d > 0 then (true, merged a (next b).2 b.at.1 b.at.2 adone (!(next b).1))
      else if d < 0 then (true, merged (next a).2 b a.at.1 a.at.2 (!(next a).1) bdone)
      else
        -- both children hold the series: merge their chunks, then advance both
        (true, merged (next a).2 (next b).2 a.at.1 (mergeChunks a.at.2 b.at.2) (!(next a).1) (!(next b).1))

/-- What a reader sees calling `At` after each `Next` that returns true, for at most
`fuel` calls. -/
def frames : Nat → SeriesSet → List Frame
  | 0, _ => []
  | fuel + 1, s =>
    match s.next with
    | (true, s') => s'.at :: frames fuel s'
    | (false, _) => []

end SeriesSet

/-- `newMergedSeriesSet`: each child advanced once, for the look-ahead. -/
def newMergedSeriesSet (a b : SeriesSet) : SeriesSet :=
  .merged a.next.2 b.next.2 [] [] (!a.next.1) (!b.next.1)

def newUniqueSeriesSet (wrapped : List Frame) : SeriesSet :=
  .unique ⟨wrapped, false, none, [], []⟩

/-- `MergeSeriesSets`, splitting the sets in half. -/
def mergeSeriesSets : List (List Frame) → SeriesSet
  | [] => .empty
  | [s] => newUniqueSeriesSet s
  | s₁ :: s₂ :: rest =>
    let all := s₁ :: s₂ :: rest
    let h := all.length / 2
    newMergedSeriesSet (mergeSeriesSets (all.take h)) (mergeSeriesSets (all.drop h))
termination_by all => all.length
decreasing_by all_goals simp only [List.length_take, List.length_drop, List.length_cons]; omega

/-! ## What a set still gives -/

/-- The frames of two children merged, as `mergedSeriesSet` gives them. -/
def mergeFrames : List Frame → List Frame → List Frame :=
  Cmp.mergeCombine (fun x y => labelsCompare x.1 y.1) fun x y => (x.1, mergeChunks x.2 y.2)

/-- The frames of a set with the consecutive frames of each label set joined. -/
def groupFrames : List Frame → List Frame
  | [] => []
  | f :: fs => Cmp.groupRuns labelsCompare f fs

def UniqueSeriesSet.rest (s : UniqueSeriesSet) : List Frame :=
  match s.peek with
  | none => if s.done then [] else groupFrames s.wrapped
  | some p => if s.done then [p] else Cmp.groupRuns labelsCompare p s.wrapped

/-- The frames a set gives from its next `Next` on. -/
def SeriesSet.rest : SeriesSet → List Frame
  | .empty => []
  | .unique s => s.rest
  | .merged a b _ _ adone bdone =>
    mergeFrames (if adone then [] else a.at :: a.rest) (if bdone then [] else b.at :: b.rest)

/-- The frames a set gives from a `Next` that returned `ok` on. -/
def SeriesSet.after (ok : Bool) (s : SeriesSet) : List Frame := if ok then s.at :: s.rest else []

/-- The merge tree of `mergeSeriesSets` on lists. -/
def mergeAll : List (List Frame) → List Frame
  | [] => []
  | [s] => groupFrames s
  | s₁ :: s₂ :: rest =>
    let all := s₁ :: s₂ :: rest
    let h := all.length / 2
    mergeFrames (mergeAll (all.take h)) (mergeAll (all.drop h))
termination_by all => all.length
decreasing_by all_goals simp only [List.length_take, List.length_drop, List.length_cons]; omega

theorem mergeChunks_eq_mergeDedup (chksA chksB : List AggrChunk) :
    mergeChunks chksA chksB = Cmp.mergeDedup AggrChunk.compare chksA chksB := by
  fun_induction mergeChunks chksA chksB with
  | case1 chksB => simp [Cmp.mergeDedup]
  | case2 a chksA => simp [Cmp.mergeDedup]
  | case3 a chksA b chksB h ih => rw [ih, Cmp.mergeDedup, if_pos h]
  | case4 a chksA b chksB h h' ih => rw [ih, Cmp.mergeDedup, if_neg h, if_pos h']
  | case5 a chksA b chksB h h' ih => rw [ih, Cmp.mergeDedup, if_neg h, if_neg h']

theorem mergeFrames_of_pos {f g : Frame} (fs gs : List Frame) (h : labelsCompare f.1 g.1 > 0) :
    mergeFrames (f :: fs) (g :: gs) = g :: mergeFrames (f :: fs) gs :=
  Cmp.mergeCombine_of_pos _ _ _ h

theorem mergeFrames_of_neg {f g : Frame} (fs gs : List Frame) (h : labelsCompare f.1 g.1 < 0) :
    mergeFrames (f :: fs) (g :: gs) = f :: mergeFrames fs (g :: gs) :=
  Cmp.mergeCombine_of_neg _ _ _ h

theorem mergeFrames_of_eq {f g : Frame} (fs gs : List Frame) (h : labelsCompare f.1 g.1 = 0) :
    mergeFrames (f :: fs) (g :: gs) = (f.1, mergeChunks f.2 g.2) :: mergeFrames fs gs :=
  Cmp.mergeCombine_of_eq _ _ _ h

@[simp] theorem at_merged (a b : SeriesSet) (lset : List ZLabel) (chunks : List AggrChunk) (adone bdone : Bool) :
    (SeriesSet.merged a b lset chunks adone bdone).at = (lset, chunks) := rfl

@[simp] theorem after_true (s : SeriesSet) : s.after true = s.at :: s.rest := rfl

@[simp] theorem after_false (s : SeriesSet) : s.after false = [] := rfl

theorem rest_merged (a b : SeriesSet) (lset : List ZLabel) (chunks : List AggrChunk) (adone bdone : Bool) :
    (SeriesSet.merged a b lset chunks adone bdone).rest = mergeFrames (a.after !adone) (b.after !bdone) := by
  cases adone <;> cases bdone <;> rfl

/-- One `Next` of a `uniqueSeriesSet` gives the head of what it still gives. -/
theorem unique_after_next (s : UniqueSeriesSet) : (SeriesSet.unique s.next.2).after s.next.1 = s.rest := by
  fun_induction UniqueSeriesSet.next s with
  | case1 wrapped peek lset chunks =>
    cases peek <;> rfl
  | case2 peek lset chunks =>
    cases peek <;> rfl
  | case3 f fs lset chunks ih => exact ih
  | case4 f fs p lset chunks hne =>
    simp only [SeriesSet.after, SeriesSet.at, SeriesSet.rest, UniqueSeriesSet.rest, if_true, Bool.false_eq_true,
      if_false, Cmp.groupRuns, if_pos hne]
  | case5 f fs p lset chunks heq ih =>
    rw [ih]
    simp only [UniqueSeriesSet.rest, Bool.false_eq_true, if_false, Cmp.groupRuns, if_neg heq]

/-- One `Next` of any set gives the head of what it still gives: the frames a set
gives are its `rest`. By induction on the merge tree; a merged node's case follows
the branches of its `Next`, each child stepping by its own induction hypothesis. -/
theorem after_next (s : SeriesSet) : s.next.2.after s.next.1 = s.rest := by
  induction s with
  | empty => rfl
  | unique s => exact unique_after_next s
  | merged a b lset chunks adone bdone iha ihb =>
    cases adone <;> cases bdone
    · -- both children give frames: their labels decide
      by_cases hpos : labelsCompare a.at.1 b.at.1 > 0
      · simp only [SeriesSet.next, SeriesSet.mergedCompare, Bool.and_self, Bool.false_eq_true, if_false,
          if_pos hpos, after_true, rest_merged, Bool.not_false, Bool.not_not, ihb, at_merged]
        rw [mergeFrames_of_pos _ _ hpos]
      · by_cases hneg : labelsCompare a.at.1 b.at.1 < 0
        · simp only [SeriesSet.next, SeriesSet.mergedCompare, Bool.and_self, Bool.false_eq_true, if_false,
            if_neg hpos, if_pos hneg, after_true, rest_merged, Bool.not_false, Bool.not_not, iha, at_merged]
          rw [mergeFrames_of_neg _ _ hneg]
        · have heq : labelsCompare a.at.1 b.at.1 = 0 := by omega
          simp only [SeriesSet.next, SeriesSet.mergedCompare, Bool.and_self, Bool.false_eq_true, if_false,
            if_neg hpos, if_neg hneg, after_true, rest_merged, Bool.not_false, Bool.not_not, iha, ihb, at_merged]
          rw [mergeFrames_of_eq _ _ heq]
    · -- `b` is done: `a` gives the frame
      simp only [SeriesSet.next, SeriesSet.mergedCompare, Bool.and_true, Bool.false_eq_true, if_false, if_true,
        after_true, after_false, rest_merged, Bool.not_false, Bool.not_true, Bool.not_not, iha, at_merged,
        mergeFrames, Cmp.mergeCombine_nil_right, show (-1 : Int) < 0 by decide, show ¬(-1 : Int) > 0 by decide]
    · -- `a` is done: `b` gives the frame
      simp only [SeriesSet.next, SeriesSet.mergedCompare, Bool.true_and, Bool.false_eq_true, if_false, if_true,
        after_true, after_false, rest_merged, Bool.not_false, Bool.not_true, Bool.not_not, ihb, at_merged,
        mergeFrames, Cmp.mergeCombine_nil_left, show (1 : Int) > 0 by decide]
    · -- both are done: `Next` is false and nothing is left
      simp only [SeriesSet.next, Bool.and_self, if_true, after_false, rest_merged, Bool.not_true, mergeFrames,
        Cmp.mergeCombine_nil_left]

/-- Draining a set with more fuel than frames left gives exactly its `rest`. -/
theorem frames_eq_rest (fuel : Nat) (s : SeriesSet) (hfuel : s.rest.length < fuel) : s.frames fuel = s.rest := by
  induction fuel generalizing s with
  | zero => omega
  | succ fuel ih =>
    have hstep := after_next s
    rcases hn : s.next with ⟨_ | _, s'⟩
    · rw [hn, after_false] at hstep
      rw [SeriesSet.frames, hn, ← hstep]
    · rw [hn] at hstep
      dsimp only at hstep
      rw [after_true] at hstep
      rw [← hstep, List.length_cons] at hfuel
      simp only [SeriesSet.frames, hn]
      rw [ih s' (by omega), ← hstep]

theorem rest_newMergedSeriesSet (a b : SeriesSet) : (newMergedSeriesSet a b).rest = mergeFrames a.rest b.rest := by
  rw [newMergedSeriesSet, rest_merged, Bool.not_not, Bool.not_not, after_next, after_next]

/-- What `MergeSeriesSets` gives is the merge tree on lists. -/
theorem rest_mergeSeriesSets (all : List (List Frame)) : (mergeSeriesSets all).rest = mergeAll all := by
  fun_induction mergeSeriesSets all with
  | case1 => rw [mergeAll]; rfl
  | case2 s => rw [mergeAll]; rfl
  | case3 s₁ s₂ rest all h ih₁ ih₂ => rw [rest_newMergedSeriesSet, ih₁, ih₂, mergeAll]

theorem length_mergeFrames_le (fs gs : List Frame) : (mergeFrames fs gs).length ≤ fs.length + gs.length :=
  Cmp.length_mergeCombine_le _ _ _

theorem length_mergeAll_le (all : List (List Frame)) : (mergeAll all).length ≤ all.flatten.length := by
  fun_induction mergeAll all with
  | case1 => simp
  | case2 s =>
    cases s with
    | nil => simp [groupFrames]
    | cons f fs =>
      have := @Cmp.length_groupRuns_le (List ZLabel) AggrChunk labelsCompare f fs
      simp only [groupFrames, List.flatten_cons, List.flatten_nil, List.append_nil, List.length_cons]
      exact this
  | case3 s₁ s₂ rest all h ih₁ ih₂ =>
    have hsplit : (all.take h).flatten.length + (all.drop h).flatten.length = all.flatten.length := by
      rw [← List.length_append, ← List.flatten_append, List.take_append_drop]
    have := length_mergeFrames_le (mergeAll (all.take h)) (mergeAll (all.drop h))
    show _ ≤ all.flatten.length
    omega

/-! ## The merge is a sorted union -/

section Spec

theorem mem_mergeChunks {chksA chksB : List AggrChunk} {y : AggrChunk} (hy : y ∈ mergeChunks chksA chksB) :
    y ∈ chksA ∨ y ∈ chksB := by
  rw [mergeChunks_eq_mergeDedup] at hy
  exact Cmp.mem_mergeDedup hy

theorem mergeChunks_sorted {chksA chksB : List AggrChunk} (ha : chksA.Pairwise fun x y => 0 < x.compare y)
    (hb : chksB.Pairwise fun x y => 0 < x.compare y) :
    (mergeChunks chksA chksB).Pairwise fun x y => 0 < x.compare y := by
  rw [mergeChunks_eq_mergeDedup]
  exact Cmp.mergeDedup_sorted AggrChunk.lawful_compare ha hb

/-- Every chunk of either side has one equal to it in the merge. -/
theorem mergeChunks_covers (chksA chksB : List AggrChunk) {x : AggrChunk} (hx : x ∈ chksA ∨ x ∈ chksB) :
    ∃ y ∈ mergeChunks chksA chksB, x.compare y = 0 := by
  rw [mergeChunks_eq_mergeDedup]
  exact Cmp.mergeDedup_covers AggrChunk.lawful_compare hx

/-- A merged frame is a frame of one side, or one of each with the same labels joined. -/
theorem mem_mergeFrames {fs gs : List Frame} {x : Frame} (hx : x ∈ mergeFrames fs gs) :
    x ∈ fs ∨ x ∈ gs ∨ ∃ f ∈ fs, ∃ g ∈ gs, f.1 = g.1 ∧ x = (f.1, mergeChunks f.2 g.2) := by
  rcases Cmp.mem_mergeCombine hx with h | h | ⟨f, hf, g, hg, hfg, rfl⟩
  · exact Or.inl h
  · exact Or.inr (Or.inl h)
  · exact Or.inr (Or.inr ⟨f, hf, g, hg, (labelsCompare_eq_zero_iff _ _).mp hfg, rfl⟩)

theorem mem_mergeFrames_left (fs gs : List Frame) {f : Frame} (hf : f ∈ fs) :
    f ∈ mergeFrames fs gs ∨ ∃ g ∈ gs, f.1 = g.1 ∧ (f.1, mergeChunks f.2 g.2) ∈ mergeFrames fs gs := by
  obtain h | ⟨g, hg, hfg, h⟩ : f ∈ mergeFrames fs gs ∨
      ∃ g ∈ gs, labelsCompare f.1 g.1 = 0 ∧ (f.1, mergeChunks f.2 g.2) ∈ mergeFrames fs gs :=
    Cmp.mem_mergeCombine_left hf
  · exact Or.inl h
  · exact Or.inr ⟨g, hg, (labelsCompare_eq_zero_iff _ _).mp hfg, h⟩

theorem mem_mergeFrames_right (fs gs : List Frame) {g : Frame} (hg : g ∈ gs) :
    g ∈ mergeFrames fs gs ∨ ∃ f ∈ fs, f.1 = g.1 ∧ (f.1, mergeChunks f.2 g.2) ∈ mergeFrames fs gs := by
  obtain h | ⟨f, hf, hfg, h⟩ : g ∈ mergeFrames fs gs ∨
      ∃ f ∈ fs, labelsCompare f.1 g.1 = 0 ∧ (f.1, mergeChunks f.2 g.2) ∈ mergeFrames fs gs :=
    Cmp.mem_mergeCombine_right hg
  · exact Or.inl h
  · exact Or.inr ⟨f, hf, (labelsCompare_eq_zero_iff _ _).mp hfg, h⟩

theorem mem_labels_mergeFrames (fs gs : List Frame) {l : List ZLabel} :
    l ∈ (mergeFrames fs gs).map Prod.fst ↔ l ∈ fs.map Prod.fst ∨ l ∈ gs.map Prod.fst := by
  unfold mergeFrames
  refine Cmp.mem_map_mergeCombine Prod.fst (fun _ _ => ?_) fun _ _ h => (labelsCompare_eq_zero_iff _ _).mp h
  rfl

theorem mergeFrames_sorted {fs gs : List Frame} (hf : fs.Pairwise fun f g => labelsCompare f.1 g.1 < 0)
    (hg : gs.Pairwise fun f g => labelsCompare f.1 g.1 < 0) :
    (mergeFrames fs gs).Pairwise fun f g => labelsCompare f.1 g.1 < 0 := by
  unfold mergeFrames
  refine Cmp.mergeCombine_sorted (lawful_labelsCompare.comap Prod.fst) (fun f _ _ => ?_) hf hg
  exact lawful_labelsCompare.refl f.1

/-- A set as `MergeSeriesSets` takes it: sorted by labels, a label set possibly over
consecutive frames, and the chunks of each label set strictly ascending. -/
structure SortedSeriesSet (set : List Frame) : Prop where
  sorted : set.Pairwise fun f g => labelsCompare f.1 g.1 ≤ 0
  chunks : ∀ f ∈ set, ((set.filter fun g => g.1 = f.1).flatMap Prod.snd).Pairwise fun x y => 0 < x.compare y

/-- The frames `out` are the sorted union of the sets `ins`: the input label sets,
strictly increasing, each with strictly ascending chunks that are input chunks of
that label set and match every such input chunk. -/
structure SortedUnion (ins : List (List Frame)) (out : List Frame) : Prop where
  sorted : out.Pairwise fun f g => labelsCompare f.1 g.1 < 0
  labels : ∀ l, l ∈ out.map Prod.fst ↔ ∃ set ∈ ins, ∃ f ∈ set, f.1 = l
  chunks_sorted : ∀ g ∈ out, g.2.Pairwise fun x y => 0 < x.compare y
  covers : ∀ set ∈ ins, ∀ f ∈ set, ∀ x ∈ f.2, ∃ g ∈ out, g.1 = f.1 ∧ ∃ y ∈ g.2, x.compare y = 0
  chunks_mem : ∀ g ∈ out, ∀ y ∈ g.2, ∃ set ∈ ins, ∃ f ∈ set, f.1 = g.1 ∧ y ∈ f.2

theorem sortedUnion_nil : SortedUnion [] [] := ⟨List.Pairwise.nil, by simp, by simp, by simp, by simp⟩

/-- A `uniqueSeriesSet` gives the sorted union of its one input. -/
theorem SortedSeriesSet.sortedUnion_groupFrames {set : List Frame} (hs : SortedSeriesSet set) :
    SortedUnion [set] (groupFrames set) := by
  cases set with
  | nil => exact ⟨List.Pairwise.nil, by simp [groupFrames], by simp [groupFrames], by simp, by simp [groupFrames]⟩
  | cons p fs =>
    have hz := labelsCompare_eq_zero_iff
    have hval := Cmp.values_groupRuns hz lawful_labelsCompare hs.sorted
    -- the run of a label set holds the chunks of the frames with those labels
    have hkey : ∀ g ∈ groupFrames (p :: fs), ∃ f ∈ p :: fs, f.1 = g.1 := fun g hg =>
      List.mem_map.mp ((Cmp.mem_keys_groupRuns hz).mp (List.mem_map_of_mem hg))
    refine ⟨Cmp.groupRuns_sorted hz lawful_labelsCompare hs.sorted, fun l => ?_, fun g hg => ?_,
      fun set hset f hf x hx => ?_, fun g hg y hy => ?_⟩
    · rw [groupFrames, Cmp.mem_keys_groupRuns hz, List.mem_map]
      simp only [List.mem_singleton, exists_eq_left]
    · obtain ⟨f, hf, hfg⟩ := hkey g hg
      rw [hval g hg, ← hfg]
      exact hs.chunks f hf
    · rw [List.mem_singleton] at hset
      subst hset
      obtain ⟨g, hg, hgf⟩ := List.mem_map.mp ((Cmp.mem_keys_groupRuns hz).mpr (List.mem_map_of_mem hf))
      refine ⟨g, hg, hgf, x, ?_, AggrChunk.lawful_compare.refl x⟩
      rw [hval g hg]
      exact List.mem_flatMap.mpr ⟨f, List.mem_filter.mpr ⟨hf, by simp [hgf]⟩, hx⟩
    · rw [hval g hg] at hy
      obtain ⟨f, hf, hy⟩ := List.mem_flatMap.mp hy
      obtain ⟨hf, hfg⟩ := List.mem_filter.mp hf
      exact ⟨p :: fs, List.mem_singleton_self _, f, hf, by simpa using hfg, hy⟩

/-- A `mergedSeriesSet` of two sorted unions gives the sorted union of both inputs. -/
theorem SortedUnion.merge {ins₁ ins₂ : List (List Frame)} {fs gs : List Frame}
    (h₁ : SortedUnion ins₁ fs) (h₂ : SortedUnion ins₂ gs) : SortedUnion (ins₁ ++ ins₂) (mergeFrames fs gs) := by
  refine ⟨?_, fun l => ?_, fun g hg => ?_, fun set hset f hf x hx => ?_, fun g hg y hy => ?_⟩
  · exact mergeFrames_sorted h₁.sorted h₂.sorted
  · rw [mem_labels_mergeFrames, h₁.labels, h₂.labels]
    simp only [List.mem_append, or_and_right, exists_or]
  · rcases mem_mergeFrames hg with hg | hg | ⟨f, hf, g', hg', _, rfl⟩
    · exact h₁.chunks_sorted g hg
    · exact h₂.chunks_sorted g hg
    · exact mergeChunks_sorted (h₁.chunks_sorted f hf) (h₂.chunks_sorted g' hg')
  · rcases List.mem_append.mp hset with hset | hset
    · -- a chunk of the left inputs: kept in its frame, or matched in the joined one
      obtain ⟨g, hg, hgf, y, hy, hxy⟩ := h₁.covers set hset f hf x hx
      rcases mem_mergeFrames_left fs gs hg with h | ⟨g', _, _, h⟩
      · exact ⟨g, h, hgf, y, hy, hxy⟩
      · obtain ⟨y', hy', hyy'⟩ := mergeChunks_covers g.2 g'.2 (Or.inl hy)
        exact ⟨_, h, hgf, y', hy', AggrChunk.lawful_compare.zero_trans hxy hyy'⟩
    · obtain ⟨g, hg, hgf, y, hy, hxy⟩ := h₂.covers set hset f hf x hx
      rcases mem_mergeFrames_right fs gs hg with h | ⟨f', _, hfg, h⟩
      · exact ⟨g, h, hgf, y, hy, hxy⟩
      · obtain ⟨y', hy', hyy'⟩ := mergeChunks_covers f'.2 g.2 (Or.inr hy)
        exact ⟨_, h, hfg.trans hgf, y', hy', AggrChunk.lawful_compare.zero_trans hxy hyy'⟩
  · rcases mem_mergeFrames hg with hg | hg | ⟨f, hf, g', hg', hfg, rfl⟩
    · obtain ⟨set, hset, f, hf, hfg, hy⟩ := h₁.chunks_mem g hg y hy
      exact ⟨set, List.mem_append_left _ hset, f, hf, hfg, hy⟩
    · obtain ⟨set, hset, f, hf, hfg, hy⟩ := h₂.chunks_mem g hg y hy
      exact ⟨set, List.mem_append_right _ hset, f, hf, hfg, hy⟩
    · rcases mem_mergeChunks hy with hy | hy
      · obtain ⟨set, hset, f', hf', hff, hy⟩ := h₁.chunks_mem f hf y hy
        exact ⟨set, List.mem_append_left _ hset, f', hf', hff, hy⟩
      · obtain ⟨set, hset, f', hf', hfg', hy⟩ := h₂.chunks_mem g' hg' y hy
        exact ⟨set, List.mem_append_right _ hset, f', hf', hfg'.trans hfg.symm, hy⟩

/-- The merge tree gives the sorted union of its inputs. By induction on the tree,
each node by `SortedUnion.merge`. -/
theorem sortedUnion_mergeAll (all : List (List Frame)) (hall : ∀ set ∈ all, SortedSeriesSet set) :
    SortedUnion all (mergeAll all) := by
  fun_induction mergeAll all with
  | case1 => exact sortedUnion_nil
  | case2 s => exact (hall s (List.mem_singleton_self s)).sortedUnion_groupFrames
  | case3 s₁ s₂ rest all h ih₁ ih₂ =>
    have hmerge := (ih₁ fun set hs => hall set (List.mem_of_mem_take hs)).merge
      (ih₂ fun set hs => hall set (List.mem_of_mem_drop hs))
    rwa [List.take_append_drop] at hmerge

end Spec


/-- `MergeSeriesSets` of sets sorted by labels, each label set's chunks strictly
ascending, gives their sorted union, and its `Next` returns false before the fuel
runs out. -/
theorem mergeSeriesSets_sortedUnion (all : List (List Frame))
    (hsorted : ∀ set ∈ all, set.Pairwise fun f g => labelsCompare f.1 g.1 ≤ 0)
    (hchunks : ∀ set ∈ all, ∀ f ∈ set,
      ((set.filter fun g => g.1 = f.1).flatMap Prod.snd).Pairwise fun x y => 0 < x.compare y)
    (fuel : Nat) (hfuel : all.flatten.length < fuel) :
    SortedUnion all ((mergeSeriesSets all).frames fuel) ∧ ((mergeSeriesSets all).frames fuel).length < fuel := by
  have hlen : (mergeSeriesSets all).rest.length < fuel := by
    rw [rest_mergeSeriesSets]
    exact Nat.lt_of_le_of_lt (length_mergeAll_le all) hfuel
  rw [frames_eq_rest fuel _ hlen]
  refine ⟨?_, hlen⟩
  rw [rest_mergeSeriesSets]
  exact sortedUnion_mergeAll all fun set hs => ⟨hsorted set hs, hchunks set hs⟩

/-- Two sets sharing the series `{a="1"}`, both with the chunk `[0, 10]`; the second
also has `{b="1"}`. -/
theorem mergeSeriesSets_sortedUnion_two_sets :
    SortedUnion
        [[([⟨"a", "1"⟩], [⟨0, 10, some ⟨1, [1], 0⟩, none, none, none, none, none⟩])],
         [([⟨"a", "1"⟩], [⟨0, 10, some ⟨1, [1], 0⟩, none, none, none, none, none⟩,
                          ⟨10, 20, some ⟨1, [2], 0⟩, none, none, none, none, none⟩]),
          ([⟨"b", "1"⟩], [⟨0, 10, some ⟨1, [3], 0⟩, none, none, none, none, none⟩])]]
        ((mergeSeriesSets
          [[([⟨"a", "1"⟩], [⟨0, 10, some ⟨1, [1], 0⟩, none, none, none, none, none⟩])],
           [([⟨"a", "1"⟩], [⟨0, 10, some ⟨1, [1], 0⟩, none, none, none, none, none⟩,
                            ⟨10, 20, some ⟨1, [2], 0⟩, none, none, none, none, none⟩]),
            ([⟨"b", "1"⟩], [⟨0, 10, some ⟨1, [3], 0⟩, none, none, none, none, none⟩])]]).frames 4) ∧
      ((mergeSeriesSets
          [[([⟨"a", "1"⟩], [⟨0, 10, some ⟨1, [1], 0⟩, none, none, none, none, none⟩])],
           [([⟨"a", "1"⟩], [⟨0, 10, some ⟨1, [1], 0⟩, none, none, none, none, none⟩,
                            ⟨10, 20, some ⟨1, [2], 0⟩, none, none, none, none, none⟩]),
            ([⟨"b", "1"⟩], [⟨0, 10, some ⟨1, [3], 0⟩, none, none, none, none, none⟩])]]).frames 4).length < 4 :=
  mergeSeriesSets_sortedUnion _ (by decide +kernel) (by decide +kernel) 4 (by decide)

/-- The shared chunk is kept once, the series in label order. -/
example :
    (mergeSeriesSets
        [[([⟨"a", "1"⟩], [⟨0, 10, some ⟨1, [1], 0⟩, none, none, none, none, none⟩])],
         [([⟨"a", "1"⟩], [⟨0, 10, some ⟨1, [1], 0⟩, none, none, none, none, none⟩,
                          ⟨10, 20, some ⟨1, [2], 0⟩, none, none, none, none, none⟩]),
          ([⟨"b", "1"⟩], [⟨0, 10, some ⟨1, [3], 0⟩, none, none, none, none, none⟩])]]).frames 4 =
      [([⟨"a", "1"⟩], [⟨0, 10, some ⟨1, [1], 0⟩, none, none, none, none, none⟩,
                       ⟨10, 20, some ⟨1, [2], 0⟩, none, none, none, none, none⟩]),
       ([⟨"b", "1"⟩], [⟨0, 10, some ⟨1, [3], 0⟩, none, none, none, none, none⟩])] := by
  decide +kernel

end Thanos.Store
