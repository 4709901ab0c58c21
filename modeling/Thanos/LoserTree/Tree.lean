import Mathlib.Data.List.Basic

/-! # The loser tree

`losertree.Tree` merges `k` sequences. Its nodes are an implicit binary tree of
`2k` positions: the leaves, one per sequence, at `k .. 2k - 1`, the internal nodes
at `1 .. k - 1`, each holding the loser of the game between the winners of its two
children (`playGame`), and node `0` holding the overall winner. `Next` advances the
winner's sequence and replays the games on the path from its leaf to the root
(`replayGames`); a finished sequence reads as `maxVal`, with index `-1` at its leaf,
and is closed. The tree is built lazily: node `0` has index `-1` until the first
`Next`. `Fix` and `IsEmpty` are not modelled.

A sequence is the list of the elements it has still to give, and `at` of a leaf is
the element its last `Next` gave. The nodes are a function from positions, the slice
having `len` of them. `close` is recorded as the list of the leaves it was called on,
in order. -/

namespace Thanos.LoserTree

/-- A node: the loser's leaf at an internal node, the winner's at node `0`, and `-1`
at a leaf once its sequence is done; `value` is the value of that leaf. -/
structure Node (E : Type) where
  index : Int
  value : E
  items : List E

/-- `Tree`, with `at` fixed to a sequence's current element. -/
structure Tree (E : Type) where
  maxVal : E
  less : E → E → Bool
  nodes : Nat → Node E
  len : Nat
  closed : List Nat

variable {E : Type}

def setNode (nodes : Nat → Node E) (i : Nat) (n : Node E) : Nat → Node E :=
  fun j => if j = i then n else nodes j

@[simp] theorem setNode_same (nodes : Nat → Node E) (i : Nat) (n : Node E) : setNode nodes i n i = n := by
  simp [setNode]

theorem setNode_of_ne (nodes : Nat → Node E) {i j : Nat} (n : Node E) (h : j ≠ i) :
    setNode nodes i n j = nodes j := by
  simp [setNode, h]

def parent (i : Nat) : Nat := i >>> 1

theorem parent_eq (i : Nat) : parent i = i / 2 := by
  simp [parent, Nat.shiftRight_eq_div_pow]

/-- `moveNext`: the leaf's sequence gives its next element, or is closed and the
leaf marked finished. -/
def moveNext (t : Tree E) (index : Nat) : Bool × Tree E :=
  let n := t.nodes index
  match n.items with
  | x :: xs => (true, { t with nodes := setNode t.nodes index { n with value := x, items := xs } })
  | [] =>
    (false, { t with nodes := setNode t.nodes index { n with value := t.maxVal, index := -1 },
                     closed := t.closed ++ [index] })

theorem moveNext_of_cons (t : Tree E) (index : Nat) {x : E} {xs : List E} (h : (t.nodes index).items = x :: xs) :
    moveNext t index =
      (true, { t with nodes := setNode t.nodes index { t.nodes index with value := x, items := xs } }) := by
  simp [moveNext, h]

theorem moveNext_of_nil (t : Tree E) (index : Nat) (h : (t.nodes index).items = []) :
    moveNext t index =
      (false, { t with nodes := setNode t.nodes index { t.nodes index with value := t.maxVal, index := -1 },
                       closed := t.closed ++ [index] }) := by
  simp [moveNext, h]

/-- `New`: each sequence at its leaf, advanced once, and node `0` flagged for the
first `Next`. Fresh nodes hold Go's zero values. -/
def new [Inhabited E] (sequences : List (List E)) (maxVal : E) (less : E → E → Bool) : Tree E :=
  let nSequences := sequences.length
  let t : Tree E := ⟨maxVal, less, fun _ => ⟨0, default, []⟩, nSequences * 2, []⟩
  let t := sequences.zipIdx.foldl (fun t (s, i) =>
    (moveNext { t with nodes := setNode t.nodes (i + nSequences) { t.nodes (i + nSequences) with items := s } }
      (i + nSequences)).2) t
  if nSequences > 0 then { t with nodes := setNode t.nodes 0 { t.nodes 0 with index := -1 } } else t

/-- `playGame pos`: the winner of the subtree at `pos`, storing each loser on the way.
Go requires `pos ≥ 1`; position `0` is returned as it is. -/
def playGame (less : E → E → Bool) (half : Nat) (nodes : Nat → Node E) (pos : Nat) :
    Nat × (Nat → Node E) :=
  if half ≤ pos ∨ pos = 0 then (pos, nodes)
  else
    let (left, nodes) := playGame less half nodes (pos * 2)
    let (right, nodes) := playGame less half nodes (pos * 2 + 1)
    let (loser, winner) := if less (nodes left).value (nodes right).value then (right, left) else (left, right)
    (winner, setNode nodes pos { nodes pos with index := loser, value := (nodes loser).value })
termination_by half - pos

def Tree.initialize (t : Tree E) : Tree E :=
  let (winner, nodes) := playGame t.less (t.len / 2) t.nodes 1
  { t with nodes := setNode nodes 0 { nodes 0 with index := winner, value := (nodes winner).value } }

/-- The loop of `replayGames` at ancestor `n`, with `pos` the winner so far and
`winningValue` its value. -/
def replayLoop (less : E → E → Bool) (n pos : Nat) (winningValue : E) (nodes : Nat → Node E) :
    Nat → Node E :=
  if n = 0 then setNode nodes 0 { nodes 0 with index := pos, value := winningValue }
  else
    let node := nodes n
    if less node.value winningValue then
      replayLoop less (parent n) node.index.toNat node.value
        (setNode nodes n { node with index := pos, value := winningValue })
    else replayLoop less (parent n) pos winningValue nodes
termination_by n
decreasing_by all_goals (rw [parent_eq]; omega)

def replayGames (less : E → E → Bool) (nodes : Nat → Node E) (pos : Nat) : Nat → Node E :=
  replayLoop less (parent pos) pos (nodes pos).value nodes

def Tree.next (t : Tree E) : Bool × Tree E :=
  if t.len = 0 then (false, t)
  else if (t.nodes 0).index = -1 then
    let t := Tree.initialize t
    (decide ((t.nodes (t.nodes 0).index.toNat).index ≠ -1), t)
  else if (t.nodes (t.nodes 0).index.toNat).index = -1 then (false, t)
  else
    let t := (moveNext t (t.nodes 0).index.toNat).2
    let t := { t with nodes := replayGames t.less t.nodes (t.nodes 0).index.toNat }
    (decide ((t.nodes (t.nodes 0).index.toNat).index ≠ -1), t)

def Tree.at (t : Tree E) : E := (t.nodes 0).value

/-- `Winner`: the sequence of the winner's leaf. -/
def Tree.winner (t : Tree E) : List E := (t.nodes (t.nodes 0).index.toNat).items

/-- `Close`: the sequences still open are closed, leaf by leaf. -/
def Tree.close (t : Tree E) : Tree E :=
  { t with closed := t.closed ++ (List.range' (t.len / 2) (t.len - t.len / 2)).filter fun q => (t.nodes q).index != -1 }

/-- The trees after each `Next` that returns true, for at most `fuel` calls, and the
tree after the last call: `At` and `Winner` read off the first. -/
def Tree.run : Nat → Tree E → List (Tree E) × Tree E
  | 0, t => ([], t)
  | fuel + 1, t =>
    match t.next with
    | (true, t') => ((t' :: (run fuel t').1), (run fuel t').2)
    | (false, t') => ([], t')

end Thanos.LoserTree
