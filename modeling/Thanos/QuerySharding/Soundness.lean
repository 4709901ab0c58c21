import Thanos.QuerySharding.Analysis
import Thanos.Store.ShardInfo
import Mathlib.Algebra.Order.Ring.Rat

/-! # Sharded evaluation of an aggregation

What vertical sharding must preserve, for the fragment of PromQL it is checked on
here: equality selectors and `sum` aggregations at one instant, with Prometheus'
semantics. An aggregation groups series by their labels restricted to the `by`
labels, or by their labels without the `without` labels and without the metric
name. Each shard evaluates the query on the series its `ShardInfo` matcher accepts,
and the shards' results are put together.

A `without` aggregation over series of several metric names groups series that
differ only in the metric name, while the analysis does not add the metric name to
the `without` labels, so the shard matcher hashes it: one group is split over
shards, each of which answers a partial sum under the same labels
(`sumWithout_splits_group`). -/

namespace Thanos.QuerySharding

open Thanos.Store

/-- One series at the evaluation instant. -/
structure Sample where
  labels : List (String × String)
  value : ℚ
  deriving DecidableEq, Repr

/-- The value of a label, the empty string when the series does not have it. -/
def labelValue (ls : List (String × String)) (name : String) : String :=
  ((ls.find? fun l => l.1 = name).map Prod.snd).getD ""

def LabelMatcher.matches (m : LabelMatcher) (ls : List (String × String)) : Bool :=
  match m.type with
  | .equal => labelValue ls m.name = m.value
  | .notEqual => labelValue ls m.name ≠ m.value

/-- The labels an aggregation groups a series by. -/
def groupingKey (grouping : List String) (without : Bool) (ls : List (String × String)) :
    List (String × String) :=
  if without then ls.filter fun l => l.1 ∉ grouping ∧ l.1 ≠ metricNameLabel
  else ls.filter fun l => l.1 ∈ grouping

/-- Adds a value to the group of its key, a new group when the key is new. -/
def addToGroup (key : List (String × String)) (v : ℚ) : List Sample → List Sample
  | [] => [⟨key, v⟩]
  | g :: gs => if g.labels = key then ⟨key, g.value + v⟩ :: gs else g :: addToGroup key v gs

/-- `sum` by a grouping key, the groups in the order they first appear. -/
def sumGroups (key : List (String × String) → List (String × String)) (series : List Sample) :
    List Sample :=
  series.foldl (fun acc s => addToGroup (key s.labels) s.value acc) []

/-- PromQL at one instant, for equality selectors and `sum` aggregations. -/
def evalInstant : Expr → List Sample → Option (List Sample)
  | .vectorSelector ms, series => some (series.filter fun s => ms.all fun m => m.matches s.labels)
  | .aggregate "sum" grouping without none e, series =>
    (evalInstant e series).map (sumGroups (groupingKey grouping without))
  | _, _ => none

def zLabelsOf (ls : List (String × String)) : List ZLabel := ls.map fun l => ⟨l.1, l.2⟩

/-- The `ShardInfo` of shard `i` of `n` that `querySharder.shardQuery` sends. -/
def shardInfoFor (a : QueryAnalysis) (n i : Nat) : ShardInfo :=
  ⟨i, n, a.shardBy, a.getShardingLabels⟩

/-- Each shard's answer: the query on the series its matcher accepts. -/
def shardedEval (q : Expr) (a : QueryAnalysis) (series : List Sample) (n : Nat) :
    Option (List (List Sample)) :=
  (List.range n).mapM fun i =>
    evalInstant q (series.filter fun s => (shardInfoFor a n i).matcher.matchesZLabels (zLabelsOf s.labels))

-- the sibling path: vector matching that ignores labels adds the metric name to them
example : analyze (.binary "/" (.vectorSelector [⟨.equal, "code", "400"⟩]) (.vectorSelector [])
    (some ⟨some ["pod"], false⟩)) = some ⟨some ["pod", metricNameLabel], false⟩ := by decide

/-- `sum without (pod) ({x="1"})` over `a{pod="1",x="1"} 1` and `b{pod="1",x="1"} 2` in two
shards: the analysis shards without `pod` only, the two series fall in different
shards, and each shard answers `{x="1"}` with its own partial sum where the query
answers `{x="1"} 3`. -/
theorem sumWithout_splits_group :
    analyze (.aggregate "sum" ["pod"] true none (.vectorSelector [⟨.equal, "x", "1"⟩])) =
        some ⟨some ["pod"], false⟩ ∧
      shardedEval (.aggregate "sum" ["pod"] true none (.vectorSelector [⟨.equal, "x", "1"⟩]))
          ⟨some ["pod"], false⟩
          [⟨[("__name__", "a"), ("pod", "1"), ("x", "1")], 1⟩, ⟨[("__name__", "b"), ("pod", "1"), ("x", "1")], 2⟩]
          2 = some [[⟨[("x", "1")], 1⟩], [⟨[("x", "1")], 2⟩]] ∧
      evalInstant (.aggregate "sum" ["pod"] true none (.vectorSelector [⟨.equal, "x", "1"⟩]))
          [⟨[("__name__", "a"), ("pod", "1"), ("x", "1")], 1⟩, ⟨[("__name__", "b"), ("pod", "1"), ("x", "1")], 2⟩] =
        some [⟨[("x", "1")], 3⟩] := by
  decide +kernel

end Thanos.QuerySharding
