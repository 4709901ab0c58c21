import Mathlib.Data.List.SplitBy
import Mathlib.Data.List.TakeWhile

/-! # Grouping the replicas of a series

`dedupSeriesSet` (`NewSeriesSet`) reads a series set sorted by labels, in which the
replicas of one series follow each other with the same labels once the replica labels
are dropped, and returns one series per label set: a single replica as it is, several
merged by `dedupSeries` or, for the chain algorithm, by `storage.ChainedSeriesMerge`. It
keeps one series of lookahead, `peek`, across calls of `Next`.

A series is its labels and the rest of it, which the grouping does not read; the input
`storage.SeriesSet` is the list of series it still yields. `DedupSeriesSet.rest` is what
the set still yields, the maximal runs of equal labels (`List.splitBy`) of the peeked
series and those after it; `DedupSeriesSet.next_of_rest_eq_cons` says that each `Next`
with `At` gives the head run, and `DedupSeriesSet.series_eq_take` lifts it to a whole
run of calls. -/

namespace Thanos.Dedup

/-- The runs of equal keys: the first is the head with the elements after it that share
its key, the others are the runs of the remainder. -/
theorem splitBy_key_cons {α κ : Type} [DecidableEq κ] (f : α → κ) (x : α) (ys : List α) :
    (x :: ys).splitBy (fun a b => f a == f b) =
      (x :: ys.takeWhile fun y => f y == f x) ::
        (ys.dropWhile fun y => f y == f x).splitBy (fun a b => f a == f b) := by
  have hkey : ∀ y ∈ x :: ys.takeWhile (fun y => f y == f x), f y = f x := by
    intro y hy
    rcases List.mem_cons.mp hy with rfl | hy
    · rfl
    · simpa using List.mem_takeWhile_imp hy
  have hchain : (x :: ys.takeWhile fun y => f y == f x).IsChain fun a b => (f a == f b) = true :=
    List.isChain_iff_pairwise.mpr (List.pairwise_of_forall_mem_list fun a ha b hb => by
      simp [hkey a ha, hkey b hb])
  conv_lhs => rw [← List.takeWhile_append_dropWhile (p := fun y => f y == f x) (l := ys)]
  match hdrop : ys.dropWhile fun y => f y == f x with
  | [] => simpa using List.splitBy_of_isChain (List.cons_ne_nil _ _) hchain
  | z :: zs =>
    -- the run ends at the first element with another key
    have hz : f z ≠ f x := by
      have := List.head?_dropWhile_not (fun y => f y == f x) ys
      rw [hdrop] at this
      simpa using this
    rw [← List.cons_append, List.splitBy_append_cons zs, List.splitBy_of_isChain
      (List.cons_ne_nil _ _) hchain, List.singleton_append]
    intro l hl
    have hl' : f l = f x := hkey l (List.mem_of_mem_getLast? hl)
    simp [hl', Ne.symm hz]

/-- `AlgorithmChain`, the deduplication algorithm that chains the replicas. -/
def algorithmChain : String := "chain"

/-- `isCounter`: whether the query's function reads counters, deduced from its name. -/
def isCounter (f : String) : Bool :=
  f == "increase" || f == "rate" || f == "irate" || f == "resets"

/-- The series `dedupSeriesSet.At` returns for a group of replicas under labels `lset`. -/
inductive MergedSeries (κ σ : Type) where
  /-- `seriesWithLabels` around the one replica of the group. -/
  | withLabels (series : κ × σ) (lset : κ)
  /-- `seriesWithLabels` around `storage.ChainedSeriesMerge` of the replicas. -/
  | chained (replicas : List (κ × σ)) (lset : κ)
  /-- `newDedupSeries(lset, replicas, f)`. -/
  | dedup (lset : κ) (replicas : List (κ × σ)) (isCounter : Bool) (f : String)
  deriving DecidableEq, Repr

namespace MergedSeries

variable {κ σ : Type}

/-- `Labels()` of the returned series. -/
def labels : MergedSeries κ σ → κ
  | withLabels _ lset => lset
  | chained _ lset => lset
  | dedup lset _ _ _ => lset

/-- The replicas the returned series merges. -/
def replicas : MergedSeries κ σ → List (κ × σ)
  | withLabels series _ => [series]
  | chained replicas _ => replicas
  | dedup _ replicas _ _ => replicas

end MergedSeries

/-- `dedupSeriesSet`, with the input as the series it still yields. -/
structure DedupSeriesSet (κ σ : Type) where
  set : List (κ × σ)
  isCounter : Bool
  deduplicationFunc : String
  replicas : List (κ × σ)
  lset : κ
  peek : κ × σ
  ok : Bool
  f : String

variable {κ σ : Type} [DecidableEq κ]

/-- `NewSeriesSet`: the first series of the input is peeked at once. -/
def newSeriesSet [Inhabited κ] [Inhabited σ] (set : List (κ × σ)) (f deduplicationFunc : String) :
    DedupSeriesSet κ σ :=
  let s : DedupSeriesSet κ σ :=
    { set := set, isCounter := isCounter f, f := f, deduplicationFunc := deduplicationFunc,
      replicas := [], lset := default, peek := default, ok := false }
  match set with
  | [] => s
  | x :: rest => { s with set := rest, ok := true, peek := x }

namespace DedupSeriesSet

/-- `dedupSeriesSet.next`: peek at the next series of the input; a replica of the group is
added and the peek repeated, other labels end the group and stay peeked. -/
def next' (s : DedupSeriesSet κ σ) : DedupSeriesSet κ σ × Bool :=
  match _hset : s.set with
  | [] => ({ s with ok := false }, decide (s.replicas.length > 0))
  | x :: xs =>
    if s.lset ≠ x.1 then ({ s with set := xs, ok := true, peek := x }, true)
    else next' { s with set := xs, ok := true, peek := x, replicas := s.replicas ++ [x] }
termination_by s.set.length
decreasing_by all_goals simp only [_hset, List.length_cons]; omega

/-- `dedupSeriesSet.Next`: the group starts with the peeked series. -/
def next (s : DedupSeriesSet κ σ) : DedupSeriesSet κ σ × Bool :=
  if !s.ok then (s, false)
  else next' { s with lset := s.peek.1, replicas := [s.peek] }

/-- `dedupSeriesSet.At`. -/
def at' (s : DedupSeriesSet κ σ) : MergedSeries κ σ :=
  match s.replicas with
  | [r] => .withLabels r s.lset
  | repl =>
    if s.deduplicationFunc = algorithmChain then .chained repl s.lset
    else .dedup s.lset repl (Dedup.isCounter s.f) s.f

/-- What `s` still yields: the runs of equal labels from the peeked series on. -/
def rest (s : DedupSeriesSet κ σ) : List (List (κ × σ)) :=
  if s.ok then (s.peek :: s.set).splitBy (fun x y => x.1 == y.1) else []

/-- The series a reader gets by calling `Next`, and `At` while it returns true, for at
most `fuel` calls of `Next`. -/
def series : Nat → DedupSeriesSet κ σ → List (MergedSeries κ σ)
  | 0, _ => []
  | fuel + 1, s => if s.next.2 then s.next.1.at' :: series fuel s.next.1 else []

omit [DecidableEq κ] in
@[simp] theorem at'_replicas (s : DedupSeriesSet κ σ) : s.at'.replicas = s.replicas := by
  unfold at'
  split
  · rename_i h
    exact h.symm
  · split <;> rfl

omit [DecidableEq κ] in
@[simp] theorem at'_labels (s : DedupSeriesSet κ σ) : s.at'.labels = s.lset := by
  unfold at'
  split
  · rfl
  · split <;> rfl

section Next'

/-- The group's members among the series the input still yields. -/
abbrev members (s : DedupSeriesSet κ σ) : List (κ × σ) :=
  s.set.takeWhile fun y => y.1 == s.lset

/-- The series after the group. -/
abbrev after (s : DedupSeriesSet κ σ) : List (κ × σ) :=
  s.set.dropWhile fun y => y.1 == s.lset

/-- The recursive peek adds the members to the group, keeps the labels and the
algorithm, and leaves the runs of what follows the group. -/
theorem next'_spec (s : DedupSeriesSet κ σ) :
    (s.next').1.replicas = s.replicas ++ s.members ∧ (s.next').1.lset = s.lset ∧
      (s.next').1.rest = s.after.splitBy (fun x y => x.1 == y.1) ∧
      (s.replicas ≠ [] → (s.next').2 = true) := by
  fun_induction next' s with
  | case1 s h =>
    simp [rest, members, after, h, List.length_pos_iff]
  | case2 s x xs h hne =>
    have hx : (x.1 == s.lset) = false := beq_eq_false_iff_ne.mpr (Ne.symm hne)
    simp [rest, members, after, h, hx]
  | case3 s x xs h heq ih =>
    have hx : (x.1 == s.lset) = true := beq_iff_eq.mpr (not_not.mp heq).symm
    obtain ⟨hrep, hl, hr, hb⟩ := ih
    simp only [members, after, h, List.takeWhile_cons, List.dropWhile_cons, hx, if_true]
    refine ⟨?_, hl, hr, fun _ => hb (by simp)⟩
    simpa using hrep

end Next'

theorem rest_newSeriesSet [Inhabited κ] [Inhabited σ] (set : List (κ × σ))
    (f deduplicationFunc : String) :
    (newSeriesSet set f deduplicationFunc).rest = set.splitBy (fun x y => x.1 == y.1) := by
  cases set <;> simp [newSeriesSet, rest]

/-- Once nothing is left, `Next` returns false. -/
theorem next_of_rest_eq_nil {s : DedupSeriesSet κ σ} (h : s.rest = []) : s.next.2 = false := by
  cases hok : s.ok with
  | false => simp [next, hok]
  | true => simp [rest, hok] at h

/-- The step law: `Next` returns true, `At` merges exactly the head run under its
labels, and the other runs are left after it. -/
theorem next_of_rest_eq_cons {s : DedupSeriesSet κ σ} {g : List (κ × σ)}
    {gs : List (List (κ × σ))} (h : s.rest = g :: gs) :
    s.next.2 = true ∧ s.next.1.at'.replicas = g ∧ (∀ x ∈ g, x.1 = s.next.1.at'.labels) ∧
      s.next.1.rest = gs := by
  cases hok : s.ok with
  | false => simp [rest, hok] at h
  | true =>
    simp only [rest, hok, if_true, splitBy_key_cons Prod.fst, List.cons.injEq] at h
    obtain ⟨rfl, rfl⟩ := h
    obtain ⟨hrep, hl, hr, hb⟩ := next'_spec { s with lset := s.peek.1, replicas := [s.peek] }
    have hnext : s.next = next' { s with lset := s.peek.1, replicas := [s.peek] } := by
      simp [next, hok]
    rw [hnext]
    refine ⟨hb (by simp), by simpa using hrep, ?_, hr⟩
    intro x hx
    rw [at'_labels, hl]
    rcases List.mem_cons.mp hx with rfl | hx
    · rfl
    · simpa using List.mem_takeWhile_imp hx

/-- The run law: the first `fuel` calls of `Next` and `At` merge the first `fuel` runs
of what is left, each under the labels of its series, and no more. -/
theorem series_eq_take (fuel : Nat) (s : DedupSeriesSet κ σ) :
    (s.series fuel).map MergedSeries.replicas = s.rest.take fuel ∧
      ∀ o ∈ s.series fuel, ∀ x ∈ o.replicas, x.1 = o.labels := by
  induction fuel generalizing s with
  | zero => simp [series]
  | succ fuel ih =>
    match h : s.rest with
    | [] => simp [series, next_of_rest_eq_nil h]
    | g :: gs =>
      obtain ⟨hnext, hrep, hlabels, hrest⟩ := next_of_rest_eq_cons h
      obtain ⟨ihrep, ihlabels⟩ := ih s.next.1
      simp only [series, hnext, if_true, List.map_cons, hrep, ihrep, hrest, List.take_succ_cons,
        true_and]
      intro o ho
      rcases List.mem_cons.mp ho with rfl | ho
      · simpa [hrep] using hlabels
      · exact ihlabels o ho

end DedupSeriesSet

theorem newSeriesSet_groups_runs [Inhabited κ] [Inhabited σ] (set : List (κ × σ))
    (f deduplicationFunc : String) (fuel : Nat) :
    ((newSeriesSet set f deduplicationFunc).series fuel).map MergedSeries.replicas =
        (set.splitBy fun x y => x.1 == y.1).take fuel ∧
      ∀ o ∈ (newSeriesSet set f deduplicationFunc).series fuel, ∀ x ∈ o.replicas,
        x.1 = o.labels := by
  rw [← DedupSeriesSet.rest_newSeriesSet set f deduplicationFunc]
  exact DedupSeriesSet.series_eq_take fuel _

end Thanos.Dedup
