import Mathlib.Data.List.Dedup

/-! # The query analyzer of vertical sharding

`QueryAnalyzer.Analyze` walks a parsed PromQL expression and folds, over its nodes
in the order `parser.Inspect` visits them, the labels the query may be sharded on:
each aggregation and each binary operation with vector matching narrows them with
`scopeToLabels`. `by` sets intersect, `without` sets unite, and a `by` set under a
`without` set loses the labels of the latter. A binary operation that matches
`ignoring` some labels adds the metric name to them, since vector matching drops
it; a `without` aggregation adds nothing.

A Go slice of label names is an `Option (List String)`, `none` being the nil
slice: `scopeToLabels` tells the nil slice, which the zero analysis holds, from an
empty one. The map-based set operations of `analysis.go` return their elements in
map order; here they keep the order of their first argument, which nothing
downstream depends on (`ShardInfo.labelSet` turns the labels into a set). -/

namespace Thanos.QuerySharding

/-- `model.MetricNameLabel`. -/
def metricNameLabel : String := "__name__"

/-- `len` of a Go slice of names. -/
def sliceLen (s : Option (List String)) : Nat := (s.getD []).length

structure QueryAnalysis where
  shardingLabels : Option (List String)
  shardBy : Bool
  deriving DecidableEq, Repr

def nonShardableQuery : QueryAnalysis := ⟨none, false⟩

def intersect (sliceA sliceB : Option (List String)) : Option (List String) :=
  if sliceLen sliceA = 0 ∨ sliceLen sliceB = 0 then some []
  else some ((sliceA.getD []).dedup.filter fun k => k ∈ sliceB.getD [])

def without (sliceA sliceB : Option (List String)) : Option (List String) :=
  match sliceA with
  | none => none
  | some a =>
    if a.length = 0 then some []
    else if sliceLen sliceB = 0 then sliceA
    else some (a.dedup.filter fun k => k ∉ sliceB.getD [])

def union (sliceA sliceB : Option (List String)) : Option (List String) :=
  if sliceLen sliceA = 0 ∧ sliceLen sliceB = 0 then some []
  else if sliceLen sliceA = 0 then sliceB
  else if sliceLen sliceB = 0 then sliceA
  else some ((sliceA.getD [] ++ sliceB.getD []).dedup)

def QueryAnalysis.scopeToLabels (q : QueryAnalysis) (labels : Option (List String)) (by_ : Bool) :
    QueryAnalysis :=
  if q.shardingLabels = none then ⟨labels, by_⟩
  else if q.shardBy && by_ then ⟨intersect q.shardingLabels labels, true⟩
  else if !q.shardBy && !by_ then ⟨union q.shardingLabels labels, false⟩
  else
    -- sharding by and without at the same time keeps the by labels not in the without set
    let (labelsBy, labelsWithout) :=
      if !q.shardBy then (labels, q.shardingLabels) else (q.shardingLabels, labels)
    ⟨without labelsBy labelsWithout, true⟩

def QueryAnalysis.isShardable (q : QueryAnalysis) : Bool := sliceLen q.shardingLabels > 0

def QueryAnalysis.getShardingLabels (q : QueryAnalysis) : Option (List String) :=
  if sliceLen q.shardingLabels = 0 then none else q.shardingLabels

/-! ## Parsed expressions -/

inductive MatchType where
  | equal
  | notEqual
  deriving DecidableEq, Repr

/-- `labels.Matcher` for the equality matchers. -/
structure LabelMatcher where
  type : MatchType
  name : String
  value : String
  deriving DecidableEq, Repr

/-- `parser.VectorMatching`: the labels of `on` (`on' = true`) or `ignoring`. -/
structure VectorMatching where
  matchingLabels : Option (List String)
  on' : Bool
  deriving DecidableEq, Repr

/-- The nodes of a parsed PromQL expression, with what the analyzer reads of them:
a call's function name and arguments, an aggregation's grouping, `without` flag,
parameter and operand, a binary operation's operands and vector matching (`none`
when an operand is not an instant vector). -/
inductive Expr where
  | numberLiteral (val : Int)
  | stringLiteral (val : String)
  | vectorSelector (matchers : List LabelMatcher)
  | matrixSelector (vectorSelector : Expr) (rangeMs : Int)
  | subquery (expr : Expr) (rangeMs stepMs : Int)
  | paren (expr : Expr)
  | unary (expr : Expr)
  | stepInvariant (expr : Expr)
  | call (func : String) (args : List Expr)
  | aggregate (op : String) (grouping : List String) (without : Bool) (param : Option Expr)
      (expr : Expr)
  | binary (op : String) (lhs rhs : Expr) (vectorMatching : Option VectorMatching)
  deriving Repr

mutual
/-- The nodes `parser.Inspect` visits, in its order: a node, then its children
(`parser.Children`; an aggregation's operand before its parameter). -/
def Expr.nodes : Expr → List Expr
  | e@(.numberLiteral _) => [e]
  | e@(.stringLiteral _) => [e]
  | e@(.vectorSelector _) => [e]
  | e@(.matrixSelector vs _) => e :: vs.nodes
  | e@(.subquery inner _ _) => e :: inner.nodes
  | e@(.paren inner) => e :: inner.nodes
  | e@(.unary inner) => e :: inner.nodes
  | e@(.stepInvariant inner) => e :: inner.nodes
  | e@(.call _ args) => e :: Expr.nodesList args
  | e@(.aggregate _ _ _ param inner) => e :: (inner.nodes ++ Expr.nodesOpt param)
  | e@(.binary _ lhs rhs _) => e :: (lhs.nodes ++ rhs.nodes)
def Expr.nodesList : List Expr → List Expr
  | [] => []
  | e :: es => e.nodes ++ Expr.nodesList es
def Expr.nodesOpt : Option Expr → List Expr
  | none => []
  | some e => e.nodes
end

/-- `unwrapStepInvariantExpr`: the expression under one step-invariant wrapper. -/
def unwrapStepInvariantExpr : Expr → Expr
  | .stepInvariant e => e
  | e => e

/-- `unwrapParenExpr`: the expression under every parenthesis level. -/
def unwrapParenExpr : Expr → Expr
  | .paren e => unwrapParenExpr e
  | e => e

/-- `stringFromArg`: the value of a string literal under a step-invariant wrapper and
parentheses; `none` where the Go type assertion panics. -/
def stringFromArg (e : Expr) : Option String :=
  match unwrapParenExpr (unwrapStepInvariantExpr e) with
  | .stringLiteral s => some s
  | _ => none

example : stringFromArg (.stepInvariant (.paren (.paren (.stringLiteral "dst")))) = some "dst" := rfl

/-- What the walk carries: the analysis so far and the labels that `label_join` and
`label_replace` write. -/
structure Walk where
  analysis : QueryAnalysis
  dynamicLabels : List String
  deriving DecidableEq, Repr

/-- The callback of `parser.Inspect` at one node: `none` is the panic of a bad
argument, `some (.error ())` stops the walk as not shardable. -/
def inspectNode (w : Walk) : Expr → Option (Except Unit Walk)
  | .call func args =>
    if func = "label_join" ∨ func = "label_replace" then do
      let dstLabel ← args[1]? >>= stringFromArg
      pure (.ok { w with dynamicLabels := w.dynamicLabels ++ [dstLabel] })
    else if func = "absent_over_time" ∨ func = "absent" ∨ func = "scalar" then
      pure (.error ())
    else if func = "histogram_quantile" then
      pure (.ok { w with analysis := w.analysis.scopeToLabels (some ["le"]) false })
    else pure (.ok w)
  | .binary _ _ _ (some vm) =>
    let shardingLabels :=
      if !vm.on' then some (vm.matchingLabels.getD [] ++ [metricNameLabel]) else vm.matchingLabels
    pure (.ok { w with analysis := w.analysis.scopeToLabels shardingLabels vm.on' })
  | .aggregate _ grouping without _ _ =>
    let shardingLabels := if grouping.length > 0 then grouping else []
    pure (.ok { w with analysis := w.analysis.scopeToLabels (some shardingLabels) !without })
  | _ => pure (.ok w)

/-- `parser.Inspect` over the nodes in order, up to the first that stops it. -/
def inspectLoop (w : Walk) : List Expr → Option (Except Unit Walk)
  | [] => pure (.ok w)
  | e :: es => do
    match ← inspectNode w e with
    | .error () => pure (.error ())
    | .ok w => inspectLoop w es

/-- `QueryAnalyzer.Analyze` on a parsed expression; `none` is a panic. -/
def analyze (expr : Expr) : Option QueryAnalysis := do
  match ← inspectLoop ⟨⟨none, false⟩, []⟩ expr.nodes with
  | .error () => pure nonShardableQuery
  | .ok w =>
    -- still shardable by the labels left once the dynamic ones are removed
    if w.dynamicLabels.length > 0 then pure (w.analysis.scopeToLabels (some w.dynamicLabels) false)
    else pure w.analysis

end Thanos.QuerySharding
