import Thanos.LoserTree.Games
import Mathlib.Data.List.Perm.Basic

/-! # The loser tree merges its sequences

A leaf's stream is what it has still to give: nothing once its sequence is done,
else its current element and the rest. `Leaves` is the invariant of the leaves: each
stream is sorted and below `maxVal`, a finished leaf reads as `maxVal`, and `closed`
lists the finished leaves, each once. `Merging` adds that every game is played.

From a merging tree, `Next` gives the least current element of all streams
(`Merging.at_le`), and the winner's stream moves on (`next_advance`); once every
stream is empty it returns false and stays so (`Merging.next_of_contents_nil`).
`run_merging` is the run lemma: from a tree that has just given `at`, the values
given from then on are a sorted permutation of all the streams. `run_new` puts
`New` and the first `Next` in front of it. -/

namespace Thanos.LoserTree

open HeapPos

variable {E : Type}

/-- What leaf `q` has still to give, its current element first. -/
def Tree.stream (t : Tree E) (q : Nat) : List E :=
  if (t.nodes q).index = -1 then [] else (t.nodes q).value :: (t.nodes q).items

/-- The leaves, one per sequence. -/
def Tree.leaves (t : Tree E) : List Nat := List.range' (t.len / 2) (t.len / 2)

/-- Everything the leaves have still to give. -/
def Tree.contents (t : Tree E) : List E := t.leaves.flatMap t.stream

/-- The invariant of the leaves. -/
structure Leaves (t : Tree E) : Prop where
  even : t.len % 2 = 0
  done : ∀ q ∈ t.leaves, (t.nodes q).index = -1 → (t.nodes q).value = t.maxVal
  sorted : ∀ q ∈ t.leaves, (t.stream q).Pairwise fun a b => t.less b a = false
  bounded : ∀ q ∈ t.leaves, ∀ x ∈ t.stream q, t.less x t.maxVal = true
  closed_nodup : t.closed.Nodup
  mem_closed : ∀ q, q ∈ t.closed ↔ q ∈ t.leaves ∧ (t.nodes q).index = -1

/-- A tree whose games are all played, over at least one sequence. -/
structure Merging (t : Tree E) : Prop where
  half_pos : 1 ≤ t.len / 2
  played : Played t.less (t.len / 2) t.nodes
  leaves : Leaves t

theorem mem_leaves {t : Tree E} {q : Nat} : q ∈ t.leaves ↔ t.len / 2 ≤ q ∧ q < 2 * (t.len / 2) := by
  simp only [Tree.leaves, List.mem_range'_1]
  omega

theorem stream_of_index {t : Tree E} {q : Nat} (h : (t.nodes q).index ≠ -1) :
    t.stream q = (t.nodes q).value :: (t.nodes q).items := by
  simp [Tree.stream, h]

theorem mem_contents {t : Tree E} {x : E} : x ∈ t.contents ↔ ∃ q ∈ t.leaves, x ∈ t.stream q := by
  simp [Tree.contents]

/-- The leaves' invariant reads only the leaves. -/
theorem Leaves.congr {t t' : Tree E} (hL : Leaves t) (hlen : t'.len = t.len) (hmax : t'.maxVal = t.maxVal)
    (hless : t'.less = t.less) (hclosed : t'.closed = t.closed) (h : ∀ q ∈ t.leaves, t'.nodes q = t.nodes q) :
    Leaves t' := by
  have hleaves : t'.leaves = t.leaves := by simp [Tree.leaves, hlen]
  have hs : ∀ q ∈ t.leaves, t'.stream q = t.stream q := fun q hq => by simp [Tree.stream, h q hq]
  refine ⟨hlen ▸ hL.even, fun q hq => ?_, fun q hq => ?_, fun q hq => ?_, hclosed ▸ hL.closed_nodup, fun q => ?_⟩
  · rw [hleaves] at hq
    rw [h q hq, hmax]
    exact hL.done q hq
  · rw [hleaves] at hq
    rw [hs q hq, hless]
    exact hL.sorted q hq
  · rw [hleaves] at hq
    rw [hs q hq, hless, hmax]
    exact hL.bounded q hq
  · rw [hclosed, hleaves, hL.mem_closed]
    exact ⟨fun ⟨h1, h2⟩ => ⟨h1, by rw [h q h1]; exact h2⟩, fun ⟨h1, h2⟩ => ⟨h1, by rw [← h q h1]; exact h2⟩⟩

theorem contents_congr {t t' : Tree E} (hlen : t'.len = t.len) (h : ∀ q ∈ t.leaves, t'.nodes q = t.nodes q) :
    t'.contents = t.contents := by
  have hleaves : t'.leaves = t.leaves := by simp [Tree.leaves, hlen]
  simp only [Tree.contents, hleaves]
  exact List.flatMap_congr fun q hq => by simp [Tree.stream, h q hq]

/-- A leaf's stream moving on, with `closed` growing by the leaf when it is done,
keeps the leaves' invariant. -/
theorem Leaves.update {t t' : Tree E} {q : Nat} (hL : Leaves t) (hq : q ∈ t.leaves)
    (hidx : (t.nodes q).index ≠ -1) (hlen : t'.len = t.len) (hmax : t'.maxVal = t.maxVal)
    (hless : t'.less = t.less) (hother : ∀ r, r ≠ q → t'.nodes r = t.nodes r)
    (hstream : t'.stream q = (t.nodes q).items)
    (hdone : (t'.nodes q).index = -1 → (t'.nodes q).value = t.maxVal)
    (hclosed : t'.closed = t.closed ++ if (t'.nodes q).index = -1 then [q] else []) : Leaves t' := by
  have hleaves : t'.leaves = t.leaves := by simp [Tree.leaves, hlen]
  have hs : ∀ r, r ≠ q → t'.stream r = t.stream r := fun r hr => by simp [Tree.stream, hother r hr]
  have hsub : (t'.stream q).Sublist (t.stream q) := by
    rw [hstream, stream_of_index hidx]
    exact List.sublist_cons_self _ _
  have hqc : q ∉ t.closed := fun h => hidx ((hL.mem_closed q).mp h).2
  refine ⟨hlen ▸ hL.even, fun r hr hr' => ?_, fun r hr => ?_, fun r hr => ?_, ?_, fun r => ?_⟩
  · rw [hleaves] at hr
    by_cases hrq : r = q
    · subst hrq; rw [hmax]; exact hdone hr'
    · rw [hother r hrq] at hr' ⊢
      rw [hmax]; exact hL.done r hr hr'
  · rw [hleaves] at hr
    rw [hless]
    by_cases hrq : r = q
    · subst hrq; exact (hL.sorted r hr).sublist hsub
    · rw [hs r hrq]; exact hL.sorted r hr
  · rw [hleaves] at hr
    rw [hless, hmax]
    by_cases hrq : r = q
    · subst hrq; exact fun x hx => hL.bounded r hr x (hsub.subset hx)
    · rw [hs r hrq]; exact hL.bounded r hr
  · rw [hclosed]
    split_ifs
    · exact List.nodup_append.mpr ⟨hL.closed_nodup, by simp,
        fun a ha b hb => by simp only [List.mem_singleton] at hb; subst hb; exact fun h => hqc (h ▸ ha)⟩
    · simpa using hL.closed_nodup
  · rw [hclosed, hleaves]
    by_cases hrq : r = q
    · subst hrq
      split_ifs with h <;> simp [hqc, hq, h]
    · rw [hother r hrq, ← hL.mem_closed r]
      split_ifs <;> simp [hrq]

theorem moveNext_len (t : Tree E) (q : Nat) : (moveNext t q).2.len = t.len := by
  rcases h : (t.nodes q).items with _ | ⟨x, xs⟩
  · rw [moveNext_of_nil t q h]
  · rw [moveNext_of_cons t q h]

theorem moveNext_maxVal (t : Tree E) (q : Nat) : (moveNext t q).2.maxVal = t.maxVal := by
  rcases h : (t.nodes q).items with _ | ⟨x, xs⟩
  · rw [moveNext_of_nil t q h]
  · rw [moveNext_of_cons t q h]

theorem moveNext_less (t : Tree E) (q : Nat) : (moveNext t q).2.less = t.less := by
  rcases h : (t.nodes q).items with _ | ⟨x, xs⟩
  · rw [moveNext_of_nil t q h]
  · rw [moveNext_of_cons t q h]

/-- `moveNext` sets the leaf's node to its stream's next state. -/
theorem moveNext_nodes (t : Tree E) (q : Nat) :
    (moveNext t q).2.nodes = setNode t.nodes q
      (match (t.nodes q).items with
       | x :: xs => { t.nodes q with value := x, items := xs }
       | [] => { t.nodes q with value := t.maxVal, index := -1 }) := by
  rcases h : (t.nodes q).items with _ | ⟨x, xs⟩
  · rw [moveNext_of_nil t q h]
  · rw [moveNext_of_cons t q h]

/-- `moveNext` on a leaf that is not done keeps the leaves' invariant. -/
theorem leaves_moveNext {t : Tree E} {q : Nat} (hL : Leaves t) (hq : q ∈ t.leaves)
    (hidx : (t.nodes q).index ≠ -1) : Leaves (moveNext t q).2 ∧ (moveNext t q).2.stream q = (t.nodes q).items := by
  have hother : ∀ r, r ≠ q → (moveNext t q).2.nodes r = t.nodes r := fun r hr => by
    rw [moveNext_nodes, setNode_of_ne _ _ hr]
  rcases h : (t.nodes q).items with _ | ⟨x, xs⟩
  · have hs : (moveNext t q).2.stream q = [] := by simp [Tree.stream, moveNext_of_nil t q h]
    refine ⟨hL.update hq hidx (moveNext_len t q) (moveNext_maxVal t q) (moveNext_less t q) hother
      (hs.trans h.symm) (fun _ => by simp [moveNext_of_nil t q h]) (by simp [moveNext_of_nil t q h]), hs⟩
  · have hs : (moveNext t q).2.stream q = x :: xs := by simp [Tree.stream, moveNext_of_cons t q h, hidx]
    refine ⟨hL.update hq hidx (moveNext_len t q) (moveNext_maxVal t q) (moveNext_less t q) hother
      (hs.trans h.symm) (fun h' => by simp [moveNext_of_cons t q h, hidx] at h') ?_, hs⟩
    simp [moveNext_of_cons t q h, hidx]

/-- Taking one element off the stream of one member of `L` takes it off the union. -/
theorem flatMap_perm_of_update {L : List Nat} {f g : Nat → List E} {w : Nat} {x : E} (hL : L.Nodup)
    (hw : w ∈ L) (hfw : f w = x :: g w) (hfg : ∀ q ∈ L, q ≠ w → f q = g q) :
    (L.flatMap f).Perm (x :: L.flatMap g) := by
  induction L with
  | nil => simp at hw
  | cons a L ih =>
    obtain ⟨haL, hL⟩ := List.nodup_cons.mp hL
    simp only [List.flatMap_cons]
    by_cases haw : a = w
    · subst haw
      have hrest : L.flatMap f = L.flatMap g :=
        List.flatMap_congr fun q hq => hfg q (List.mem_cons_of_mem _ hq) fun h => haL (h ▸ hq)
      rw [hfw, hrest]
      rfl
    · have hwL : w ∈ L := (List.mem_cons.mp hw).resolve_left (Ne.symm haw)
      rw [hfg a List.mem_cons_self haw]
      exact ((ih hL hwL fun q hq => hfg q (List.mem_cons_of_mem _ hq)).append_left _).trans
        List.perm_middle

section Merging

variable {t : Tree E}

/-- Node `0` holds the winner's leaf. -/
theorem Merging.root_toNat (hM : Merging t) :
    (t.nodes 0).index.toNat = winnerOf (t.len / 2) t.nodes 1 := by
  rw [hM.played.root]
  simp

theorem Merging.winner_mem (hM : Merging t) : winnerOf (t.len / 2) t.nodes 1 ∈ t.leaves :=
  mem_leaves.mpr ⟨le_winnerOf le_rfl, winnerOf_lt (by have := hM.half_pos; omega)⟩

/-- `At` is the value of the winner's leaf. -/
theorem Merging.at_eq (hM : Merging t) : t.at = (t.nodes (winnerOf (t.len / 2) t.nodes 1)).value :=
  hM.played.rootValue

theorem Merging.root_ne (hM : Merging t) : (t.nodes 0).index ≠ -1 := by
  rw [hM.played.root]
  omega

/-- The winner's leaf is a leaf, and its value is `At`: `Winner` is the sequence
whose current element `At` gives. -/
theorem Merging.winner_spec (hM : Merging t) :
    t.len / 2 ≤ (t.nodes 0).index.toNat ∧ (t.nodes 0).index.toNat < 2 * (t.len / 2) ∧
      (t.nodes (t.nodes 0).index.toNat).value = t.at := by
  rw [hM.root_toNat]
  exact ⟨(mem_leaves.mp hM.winner_mem).1, (mem_leaves.mp hM.winner_mem).2, hM.at_eq.symm⟩

/-- Once every stream is empty, `Close` has nothing left to close. -/
theorem Merging.close_closed (hM : Merging t) (h : t.contents = []) : t.close.closed = t.closed := by
  have hlen : t.len - t.len / 2 = t.len / 2 := by have := hM.leaves.even; omega
  simp only [Tree.close, hlen, List.append_right_eq_self, List.filter_eq_nil_iff]
  intro q hq
  have := List.flatMap_eq_nil_iff.mp h q hq
  by_cases hidx : (t.nodes q).index = -1
  · simp [hidx]
  · simp [Tree.stream, hidx] at this

/-- Once every stream is empty, every leaf has been closed, each once. -/
theorem Merging.closed_perm (hM : Merging t) (h : t.contents = []) : t.closed.Perm t.leaves := by
  refine (List.perm_ext_iff_of_nodup hM.leaves.closed_nodup List.nodup_range').mpr fun q => ?_
  rw [hM.leaves.mem_closed]
  refine ⟨fun hq => hq.1, fun hq => ⟨hq, ?_⟩⟩
  by_contra hidx
  have := List.flatMap_eq_nil_iff.mp h q hq
  simp [Tree.stream, hidx] at this

variable (hwo : IsStrictWeakOrder E fun a b => t.less a b = true)
include hwo

/-- No leaf's current value beats `At`. -/
theorem Merging.value_le_at (hM : Merging t) {q : Nat} (hq : q ∈ t.leaves) :
    t.less (t.nodes q).value t.at = false := by
  have hq' := mem_leaves.mp hq
  rw [hM.at_eq]
  exact winnerOf_min hwo hM.played.games le_rfl (below_one (by have := hM.half_pos; omega)) hq'.1 hq'.2

/-- Nothing a leaf has still to give beats `At`. -/
theorem Merging.at_le (hM : Merging t) {x : E} (hx : x ∈ t.contents) : t.less x t.at = false := by
  obtain ⟨q, hq, hxq⟩ := mem_contents.mp hx
  have hidx : (t.nodes q).index ≠ -1 := fun h => by simp [Tree.stream, h] at hxq
  have hs := hM.leaves.sorted q hq
  rw [stream_of_index hidx] at hs hxq
  have hv := hM.value_le_at hwo hq
  rcases List.mem_cons.mp hxq with rfl | hx'
  · exact hv
  · -- a later element of a sorted stream does not beat its head
    exact not_less_trans hwo ((List.pairwise_cons.mp hs).1 x hx') hv

/-- The winner's leaf is done exactly when every leaf is: it would read `maxVal`,
which every element beats. -/
theorem Merging.contents_eq_nil_iff (hM : Merging t) :
    t.contents = [] ↔ (t.nodes (winnerOf (t.len / 2) t.nodes 1)).index = -1 := by
  constructor
  · intro h
    by_contra hw
    have := List.flatMap_eq_nil_iff.mp h _ hM.winner_mem
    simp [Tree.stream, hw] at this
  · intro hw
    have hmax := hM.leaves.done _ hM.winner_mem hw
    refine List.flatMap_eq_nil_iff.mpr fun q hq => ?_
    by_contra hne
    have hidx : (t.nodes q).index ≠ -1 := fun h => hne (by simp [Tree.stream, h])
    have hb := hM.leaves.bounded q hq (t.nodes q).value (by simp [stream_of_index hidx])
    have hv := hM.value_le_at hwo hq
    rw [hM.at_eq, hmax] at hv
    simp [hv] at hb

/-- Once every stream is empty, `Next` returns false and leaves the tree as it is. -/
theorem Merging.next_of_contents_nil (hM : Merging t) (h : t.contents = []) : t.next = (false, t) := by
  have hlen : t.len ≠ 0 := by have := hM.half_pos; omega
  have hw : (t.nodes (t.nodes 0).index.toNat).index = -1 := by
    rw [hM.root_toNat]
    exact (hM.contents_eq_nil_iff hwo).mp h
  simp [Tree.next, hlen, hM.root_ne, hw]

/-- While a stream is not empty, `Next` takes `At` off the winner's stream and the
tree goes on merging; it returns true exactly when something is left. -/
theorem Merging.next_advance (hM : Merging t) (h : t.contents ≠ []) :
    Merging t.next.2 ∧ t.contents.Perm (t.at :: t.next.2.contents) ∧
      (t.next.1 = true ↔ t.next.2.contents ≠ []) ∧ t.next.2.len = t.len ∧ t.next.2.less = t.less := by
  have hh := hM.half_pos
  have hlen : t.len ≠ 0 := by omega
  have hwl := hM.winner_mem
  have hw : (t.nodes (winnerOf (t.len / 2) t.nodes 1)).index ≠ -1 := fun h' =>
    h ((hM.contents_eq_nil_iff hwo).mpr h')
  have hw0 : 0 ≠ winnerOf (t.len / 2) t.nodes 1 := (winnerOf_ne_zero le_rfl hh).symm
  obtain ⟨hL1, hs1⟩ := leaves_moveNext hM.leaves hwl hw
  obtain ⟨hP2, hf2⟩ := replayGames_played hwo hM.played hh
    (match (t.nodes (winnerOf (t.len / 2) t.nodes 1)).items with
     | x :: xs => { t.nodes (winnerOf (t.len / 2) t.nodes 1) with value := x, items := xs }
     | [] => { t.nodes (winnerOf (t.len / 2) t.nodes 1) with value := t.maxVal, index := -1 })
  rw [← moveNext_nodes] at hP2 hf2
  set w := winnerOf (t.len / 2) t.nodes 1
  set t1 := (moveNext t w).2 with ht1
  set t2 : Tree E := { t1 with nodes := replayGames t.less t1.nodes w } with ht2
  have hnext : t.next = (decide ((t2.nodes (t2.nodes 0).index.toNat).index ≠ -1), t2) := by
    have h10 : t1.nodes 0 = t.nodes 0 := by rw [ht1, moveNext_nodes, setNode_of_ne _ _ hw0]
    simp only [Tree.next, if_neg hlen, if_neg hM.root_ne, hM.root_toNat, if_neg hw, h10, moveNext_less, t2, t1, w]
  have hlen1 : t1.len = t.len := moveNext_len t w
  have hless2 : t2.less = t.less := moveNext_less t w
  have hleaves : ∀ q ∈ t1.leaves, t2.nodes q = t1.nodes q := fun q hq =>
    hf2 q (hlen1 ▸ (mem_leaves.mp hq).1)
  have hM2 : Merging t2 :=
    ⟨hlen1 ▸ hh, by rw [hless2]; exact hlen1 ▸ hP2, hL1.congr rfl rfl rfl rfl hleaves⟩
  have hperm : t.contents.Perm (t.at :: t1.contents) := by
    have hleaves1 : t1.leaves = t.leaves := by simp [Tree.leaves, hlen1]
    rw [Tree.contents, Tree.contents, hleaves1, hM.at_eq]
    refine flatMap_perm_of_update List.nodup_range' hwl (by rw [stream_of_index hw, hs1]) fun q _ hqw => ?_
    simp [Tree.stream, t1, moveNext_nodes, setNode_of_ne _ _ hqw]
  have hwo2 : IsStrictWeakOrder E fun a b => t2.less a b = true := by rw [hless2]; exact hwo
  rw [hnext]
  refine ⟨hM2, (contents_congr (t := t1) (show t2.len = t1.len from rfl) hleaves).symm ▸ hperm, ?_, hlen1,
    hless2⟩
  rw [hM2.root_toNat]
  simp only [decide_eq_true_eq, ne_eq, hM2.contents_eq_nil_iff hwo2]

end Merging

theorem initialize_fields (t : Tree E) :
    ( Tree.initialize t).len = t.len ∧ ( Tree.initialize t).less = t.less ∧ ( Tree.initialize t).maxVal = t.maxVal ∧
      ( Tree.initialize t).closed = t.closed := by
  unfold Tree.initialize
  split
  exact ⟨rfl, rfl, rfl, rfl⟩

section New

/-- One step of the loop of `New`: sequence `s` at leaf `i + k`, advanced once. -/
def newStep (k : Nat) (t : Tree E) : List E × Nat → Tree E
  | (s, i) => (moveNext { t with nodes := setNode t.nodes (i + k) { t.nodes (i + k) with items := s } } (i + k)).2

/-- A leaf as the loop of `New` leaves it. -/
def leafNode (maxVal : E) [Inhabited E] : List E → Node E
  | x :: xs => ⟨0, x, xs⟩
  | [] => ⟨-1, maxVal, []⟩

theorem setNode_setNode (nodes : Nat → Node E) (i : Nat) (a b : Node E) :
    setNode (setNode nodes i a) i b = setNode nodes i b := by
  funext j
  simp only [setNode]
  split_ifs <;> rfl

theorem newStep_eq [Inhabited E] (k : Nat) (t : Tree E) (s : List E) (i : Nat)
    (hq : t.nodes (i + k) = ⟨0, default, []⟩) :
    newStep k t (s, i) = { t with nodes := setNode t.nodes (i + k) (leafNode t.maxVal s),
                                  closed := t.closed ++ if s.isEmpty then [i + k] else [] } := by
  cases s with
  | nil => simp [newStep, moveNext, hq, leafNode, setNode_setNode]
  | cons x xs => simp [newStep, moveNext, hq, leafNode, setNode_setNode]

/-- The loop of `New` over sequences `j ..` of `l` puts each at its leaf, and closes
the empty ones in order. -/
theorem foldl_newStep [Inhabited E] (k : Nat) : ∀ (l : List (List E)) (j : Nat) (t : Tree E),
    (∀ i < l.length, t.nodes (j + i + k) = ⟨0, default, []⟩) →
    (l.zipIdx j).foldl (newStep k) t =
      { t with
        nodes := fun q => if j + k ≤ q ∧ q < j + k + l.length then leafNode t.maxVal (l.getD (q - (j + k)) [])
          else t.nodes q,
        closed := t.closed ++ (List.range' (j + k) l.length).filter fun q => (l.getD (q - (j + k)) []).isEmpty }
  | [], j, t, _ => by
    cases t
    simp only [List.zipIdx_nil, List.foldl_nil, List.length_nil, List.range'_zero, List.filter_nil,
      List.append_nil, Tree.mk.injEq, true_and, and_true]
    funext q
    rw [if_neg (by omega)]
  | s :: l, j, t, hfresh => by
    rw [List.zipIdx_cons, List.foldl_cons, newStep_eq k t s j (by simpa using hfresh 0 (by simp))]
    rw [foldl_newStep k l (j + 1) _ fun i hi => by
      dsimp only
      rw [setNode_of_ne _ _ (by omega)]
      simpa [Nat.add_assoc, Nat.add_comm 1] using hfresh (i + 1) (by simp; omega)]
    -- past the first leaf, sequence `q - (j + k)` of `s :: l` is `l`'s `q - (j + 1 + k)`
    have hget : ∀ q, j + 1 + k ≤ q → (s :: l).getD (q - (j + k)) [] = l.getD (q - (j + 1 + k)) [] := by
      intro q hq
      rw [show q - (j + k) = q - (j + 1 + k) + 1 by omega, List.getD_cons_succ]
    simp only [Tree.mk.injEq, true_and]
    constructor
    · funext q
      simp only [setNode, List.length_cons]
      split_ifs with h1 _ h3 <;> first | omega | rfl | skip
      · rw [hget q h1.1]
      · subst h3; simp
    · have hrest := List.filter_congr (p := fun q => ((s :: l).getD (q - (j + k)) []).isEmpty)
        (q := fun q => (l.getD (q - (j + 1 + k)) []).isEmpty) (l := List.range' (j + k + 1) l.length)
        fun q hq => by rw [hget q (by simp at hq; omega)]
      rw [List.length_cons, List.range'_succ, List.filter_cons, List.append_assoc, hrest,
        show j + k + 1 = j + 1 + k by omega, Nat.sub_self, List.getD_cons_zero]
      split_ifs <;> simp
theorem flatMap_range'_getD (L : List (List E)) (k : Nat) :
    (List.range' k L.length).flatMap (fun q => L.getD (q - k) []) = L.flatten := by
  induction L generalizing k with
  | nil => simp
  | cons s L ih =>
    rw [List.length_cons, List.range'_succ, List.flatMap_cons, Nat.sub_self, List.getD_cons_zero,
      List.flatten_cons, ← ih (k + 1)]
    congr 1
    exact List.flatMap_congr fun q hq => by
      rw [show q - k = q - (k + 1) + 1 by simp at hq; omega, List.getD_cons_succ]

theorem getD_mem_or (seqs : List (List E)) (i : Nat) : seqs.getD i [] ∈ seqs ∨ seqs.getD i [] = [] := by
  rw [List.getD_eq_getElem?_getD]
  cases h : seqs[i]? with
  | none => exact Or.inr rfl
  | some s => exact Or.inl (List.mem_of_getElem? h)

variable [Inhabited E] (seqs : List (List E)) (maxVal : E) (less : E → E → Bool)

/-- The tree after the loop of `New`, before node `0` is flagged. -/
def newLeaves : Tree E :=
  seqs.zipIdx.foldl (newStep seqs.length) ⟨maxVal, less, fun _ => ⟨0, default, []⟩, seqs.length * 2, []⟩

theorem new_eq : new seqs maxVal less =
    if seqs.length > 0 then
      { newLeaves seqs maxVal less with
        nodes := setNode (newLeaves seqs maxVal less).nodes 0 { (newLeaves seqs maxVal less).nodes 0 with index := -1 } }
    else newLeaves seqs maxVal less := rfl

theorem newLeaves_eq : newLeaves seqs maxVal less =
    ⟨maxVal, less,
      fun q => if seqs.length ≤ q ∧ q < seqs.length + seqs.length then leafNode maxVal (seqs.getD (q - seqs.length) [])
        else ⟨0, default, []⟩,
      seqs.length * 2, (List.range' seqs.length seqs.length).filter fun q => (seqs.getD (q - seqs.length) []).isEmpty⟩ := by
  rw [newLeaves, foldl_newStep _ _ 0 _ fun _ _ => rfl]
  simp

theorem leafNode_index_eq (s : List E) : (leafNode maxVal s).index = -1 ↔ s.isEmpty := by
  cases s <;> simp [leafNode]

theorem stream_leafNode {t : Tree E} {q : Nat} (s : List E) (h : t.nodes q = leafNode maxVal s) : t.stream q = s := by
  cases s <;> simp [Tree.stream, h, leafNode]

variable {seqs}

/-- `New` puts sequence `q - k` at leaf `q`. -/
theorem new_nodes_leaf (hk : 1 ≤ seqs.length) {q : Nat} (hq : q ∈ (new seqs maxVal less).leaves) :
    (new seqs maxVal less).nodes q = leafNode maxVal (seqs.getD (q - seqs.length) []) := by
  rw [new_eq, if_pos (show seqs.length > 0 by omega)] at hq ⊢
  rw [newLeaves_eq] at hq ⊢
  dsimp only at hq ⊢
  have hq' := mem_leaves.mp hq
  dsimp only at hq'
  simp only [Nat.mul_div_cancel _ (show 0 < 2 by omega)] at hq'
  rw [setNode_of_ne _ _ (by omega), if_pos (by omega)]

theorem new_len : (new seqs maxVal less).len = seqs.length * 2 := by
  rw [new_eq, newLeaves_eq]
  split_ifs <;> rfl

theorem new_maxVal : (new seqs maxVal less).maxVal = maxVal := by
  rw [new_eq, newLeaves_eq]
  split_ifs <;> rfl

theorem new_less : (new seqs maxVal less).less = less := by
  rw [new_eq, newLeaves_eq]
  split_ifs <;> rfl

theorem new_closed : (new seqs maxVal less).closed =
    (List.range' seqs.length seqs.length).filter fun q => (seqs.getD (q - seqs.length) []).isEmpty := by
  rw [new_eq, newLeaves_eq]
  split_ifs <;> rfl

theorem new_leaves_eq : (new seqs maxVal less).leaves = List.range' seqs.length seqs.length := by
  simp [Tree.leaves, new_len]

theorem new_contents (hk : 1 ≤ seqs.length) : (new seqs maxVal less).contents = seqs.flatten := by
  rw [Tree.contents, ← flatMap_range'_getD seqs seqs.length, new_leaves_eq]
  exact List.flatMap_congr fun q hq =>
    stream_leafNode maxVal _ (new_nodes_leaf maxVal less hk ((new_leaves_eq maxVal less).symm ▸ hq))

variable (hsorted : ∀ s ∈ seqs, s.Pairwise fun a b => less b a = false)
  (hmax : ∀ s ∈ seqs, ∀ x ∈ s, less x maxVal = true)
include hsorted hmax

/-- `New` establishes the leaves' invariant. -/
theorem new_leaves (hk : 1 ≤ seqs.length) : Leaves (new seqs maxVal less) := by
  have hnode := fun {q} (hq : q ∈ (new seqs maxVal less).leaves) => new_nodes_leaf maxVal less hk hq
  refine ⟨by rw [new_len]; omega, fun q hq hidx => ?_, fun q hq => ?_, fun q hq => ?_, ?_, fun q => ?_⟩
  · rw [hnode hq] at hidx ⊢
    rw [new_maxVal]
    cases h : seqs.getD (q - seqs.length) [] with
    | nil => rfl
    | cons x xs => rw [h] at hidx; simp [leafNode] at hidx
  · rw [stream_leafNode maxVal _ (hnode hq), new_less]
    rcases getD_mem_or seqs (q - seqs.length) with h | h
    · exact hsorted _ h
    · rw [h]; exact List.Pairwise.nil
  · rw [stream_leafNode maxVal _ (hnode hq), new_less, new_maxVal]
    rcases getD_mem_or seqs (q - seqs.length) with h | h
    · exact hmax _ h
    · rw [h]; simp
  · rw [new_closed]
    exact (List.nodup_range' (s := seqs.length) (n := seqs.length)).filter _
  · rw [new_closed, List.mem_filter, ← new_leaves_eq maxVal less]
    exact and_congr_right fun hq => by rw [hnode hq, leafNode_index_eq]

/-- The first `Next` after `New` plays every game; the tree then merges all the
sequences, and the call returns true exactly when one of them is not empty. -/
theorem new_next (hwo : IsStrictWeakOrder E fun a b => less a b = true) (hk : 1 ≤ seqs.length) :
    Merging (new seqs maxVal less).next.2 ∧ (new seqs maxVal less).next.2.contents = seqs.flatten ∧
      (new seqs maxVal less).next.2.len = seqs.length * 2 ∧ (new seqs maxVal less).next.2.less = less ∧
      ((new seqs maxVal less).next.1 = true ↔ (new seqs maxVal less).next.2.contents ≠ []) := by
  have hh : 1 ≤ (new seqs maxVal less).len / 2 := by rw [new_len]; omega
  have h0 : ((new seqs maxVal less).nodes 0).index = -1 := by
    rw [new_eq, if_pos (show seqs.length > 0 by omega)]
    simp
  have hnext : (new seqs maxVal less).next =
      (decide ((( Tree.initialize (new seqs maxVal less)).nodes
        (( Tree.initialize (new seqs maxVal less)).nodes 0).index.toNat).index ≠ -1),
       Tree.initialize (new seqs maxVal less)) := by
    simp only [Tree.next, if_neg (show (new seqs maxVal less).len ≠ 0 by omega), if_pos h0]
  obtain ⟨hlen, hless, hmax', hclosed⟩ := initialize_fields (new seqs maxVal less)
  obtain ⟨hP, hf⟩ := initialize_played hwo (new seqs maxVal less) hh (new_less maxVal less)
  have hleaves : ∀ q ∈ (new seqs maxVal less).leaves,
      ( Tree.initialize (new seqs maxVal less)).nodes q = (new seqs maxVal less).nodes q :=
    fun q hq => hf q (mem_leaves.mp hq).1
  have hM : Merging ( Tree.initialize (new seqs maxVal less)) :=
    ⟨hlen ▸ hh, by rw [hlen, hless, new_less]; exact hP,
      (new_leaves maxVal less hsorted hmax hk).congr hlen hmax' hless hclosed hleaves⟩
  have hwoI : IsStrictWeakOrder E fun a b => ( Tree.initialize (new seqs maxVal less)).less a b = true := by
    rw [hless, new_less]; exact hwo
  rw [hnext]
  refine ⟨hM, by rw [contents_congr hlen hleaves, new_contents maxVal less hk], by rw [hlen, new_len],
    by rw [hless, new_less], ?_⟩
  rw [hM.root_toNat]
  simp only [decide_eq_true_eq, ne_eq, hM.contents_eq_nil_iff hwoI]

end New

/-- The run lemma: from a merging tree that has just given `at`, `at` and the values
given after each further `Next` are a sorted permutation of what the streams held;
`Next` then returns false, every leaf has been closed once, and `Close` closes no
more. -/
theorem run_merging (fuel : Nat) {t : Tree E} (hM : Merging t)
    (hwo : IsStrictWeakOrder E fun a b => t.less a b = true) (hne : t.contents ≠ [])
    (hfuel : t.contents.length ≤ fuel) :
    ((t :: (Tree.run fuel t).1).map Tree.at).Perm t.contents ∧
      ((t :: (Tree.run fuel t).1).map Tree.at).Pairwise (fun a b => t.less b a = false) ∧
      (∀ s ∈ t :: (Tree.run fuel t).1, Merging s ∧ s.len = t.len) ∧
      ((Tree.run fuel t).2.next).1 = false ∧ (Tree.run fuel t).2.closed.Perm t.leaves ∧
      (Tree.run fuel t).2.close.closed = (Tree.run fuel t).2.closed := by
  induction fuel generalizing t with
  | zero => exact absurd (List.length_eq_zero_iff.mp (Nat.le_zero.mp hfuel)) hne
  | succ fuel ih =>
    obtain ⟨hM2, hperm, hb, hlen2, hless2⟩ := hM.next_advance hwo hne
    have hwo2 : IsStrictWeakOrder E fun a b => t.next.2.less a b = true := by rw [hless2]; exact hwo
    have hleaves2 : t.next.2.leaves = t.leaves := by simp [Tree.leaves, hlen2]
    cases hnext : t.next.1 with
    | true =>
      have hrun : Tree.run (fuel + 1) t = (t.next.2 :: (Tree.run fuel t.next.2).1, (Tree.run fuel t.next.2).2) := by
        rw [Tree.run, show t.next = (true, t.next.2) from Prod.ext hnext rfl]
      have hne2 := hb.mp hnext
      have hlen : t.next.2.contents.length ≤ fuel := by
        have := hperm.length_eq
        simp only [List.length_cons] at this
        omega
      obtain ⟨p2, s2, m2, n2, c2, e2⟩ := ih hM2 hwo2 hne2 hlen
      rw [hrun]
      refine ⟨?_, ?_, ?_, n2, hleaves2 ▸ c2, e2⟩
      · exact (p2.cons t.at).trans hperm.symm
      · refine List.pairwise_cons.mpr ⟨fun y hy => ?_, hless2 ▸ s2⟩
        exact hM.at_le hwo (hperm.symm.subset (List.mem_cons_of_mem _ (p2.subset hy)))
      · intro s hs
        rcases List.mem_cons.mp hs with rfl | hs
        · exact ⟨hM, rfl⟩
        · exact ⟨(m2 s hs).1, (m2 s hs).2.trans hlen2⟩
    | false =>
      have hrun : Tree.run (fuel + 1) t = ([], t.next.2) := by
        rw [Tree.run, show t.next = (false, t.next.2) from Prod.ext hnext rfl]
      have hnil : t.next.2.contents = [] := by
        by_contra h'
        simp [hb.mpr h'] at hnext
      rw [hrun]
      refine ⟨?_, List.pairwise_singleton _ _, ?_, ?_, ?_, ?_⟩
      · rw [hnil] at hperm
        simpa using hperm.symm
      · intro s hs
        rw [List.mem_singleton.mp hs]
        exact ⟨hM, rfl⟩
      · rw [hM2.next_of_contents_nil hwo2 hnil]
      · exact hleaves2 ▸ hM2.closed_perm hnil
      · exact hM2.close_closed hnil

/-- Merging sequences sorted under a strict weak order, every element below
`maxVal`: with more calls than elements, `At` after each `Next` that returns true
gives a sorted permutation of all the elements, `Winner` is each time the leaf whose
current element `At` gives, `Next` then returns false, and every sequence (the one at
leaf `k + i` is the `i`-th) has been closed exactly once, a final `Close` closing no
more. -/
theorem run_new [Inhabited E] (seqs : List (List E)) (maxVal : E) (less : E → E → Bool)
    (hwo : IsStrictWeakOrder E fun a b => less a b = true)
    (hsorted : ∀ s ∈ seqs, s.Pairwise fun a b => less b a = false)
    (hmax : ∀ s ∈ seqs, ∀ x ∈ s, less x maxVal = true) (fuel : Nat) (hfuel : seqs.flatten.length < fuel) :
    ((Tree.run fuel (new seqs maxVal less)).1.map Tree.at).Perm seqs.flatten ∧
      ((Tree.run fuel (new seqs maxVal less)).1.map Tree.at).Pairwise (fun a b => less b a = false) ∧
      (∀ t ∈ (Tree.run fuel (new seqs maxVal less)).1,
        seqs.length ≤ (t.nodes 0).index.toNat ∧ (t.nodes 0).index.toNat < 2 * seqs.length ∧
          (t.nodes (t.nodes 0).index.toNat).value = t.at) ∧
      ((Tree.run fuel (new seqs maxVal less)).2.next).1 = false ∧
      (Tree.run fuel (new seqs maxVal less)).2.closed.Perm (List.range' seqs.length seqs.length) ∧
      (Tree.run fuel (new seqs maxVal less)).2.close.closed = (Tree.run fuel (new seqs maxVal less)).2.closed := by
  obtain ⟨f, rfl⟩ : ∃ f, fuel = f + 1 := ⟨fuel - 1, by omega⟩
  rcases Nat.eq_zero_or_pos seqs.length with hk | hk
  · -- no sequences: `Next` returns false at once
    obtain rfl := List.length_eq_zero_iff.mp hk
    have hnext : (new ([] : List (List E)) maxVal less).next = (false, new [] maxVal less) := by
      simp [Tree.next, new_len]
    rw [Tree.run, hnext]
    simp [hnext, new_closed, Tree.close, new_len]
  · obtain ⟨hM, hc, hlenT, hlessT, hb⟩ := new_next maxVal less hsorted hmax hwo hk
    have hwoT : IsStrictWeakOrder E fun a b => (new seqs maxVal less).next.2.less a b = true := by
      rw [hlessT]; exact hwo
    have hleavesT : (new seqs maxVal less).next.2.leaves = List.range' seqs.length seqs.length := by
      simp [Tree.leaves, hlenT]
    by_cases hne : (new seqs maxVal less).next.2.contents = []
    · -- every sequence is empty
      have h1 : (new seqs maxVal less).next.1 = false := by simpa [hne] using hb
      rw [Tree.run, show (new seqs maxVal less).next = (false, (new seqs maxVal less).next.2) from Prod.ext h1 rfl]
      simp only [List.map_nil, List.Pairwise.nil, List.not_mem_nil, IsEmpty.forall_iff, implies_true, true_and]
      exact ⟨by rw [← hc, hne], by rw [hM.next_of_contents_nil hwoT hne], hleavesT ▸ hM.closed_perm hne,
        hM.close_closed hne⟩
    · rw [Tree.run, show (new seqs maxVal less).next = (true, (new seqs maxVal less).next.2) from
        Prod.ext (hb.mpr hne) rfl]
      obtain ⟨hperm, hsort, hall, hfin, hclosed, hclose⟩ :=
        run_merging f hM hwoT hne (by rw [hc]; omega)
      refine ⟨hc ▸ hperm, by rwa [hlessT] at hsort, fun t ht => ?_, hfin, hleavesT ▸ hclosed, hclose⟩
      obtain ⟨hMt, hlt⟩ := hall t ht
      have := hMt.winner_spec
      rw [hlt, hlenT, Nat.mul_div_cancel _ (show 0 < 2 by omega)] at this
      exact this

example : (Tree.run 10 (new [[1, 4, 7], [2, 5], [3, 3, 9], []] (100 : Nat) fun a b => decide (a < b))).1.map Tree.at =
    [1, 2, 3, 3, 4, 5, 7, 9] := by
  decide +kernel

/-- `<` on the naturals as a `less` function is a strict weak order. -/
theorem natLt_isStrictWeakOrder : IsStrictWeakOrder Nat fun a b => decide (a < b) = true where
  irrefl a := by simp
  trans a b c hab hbc := by simp only [decide_eq_true_eq] at *; omega
  incomp_trans a b c hab hbc := by simp only [decide_eq_true_eq] at *; omega

/-- Merging `[1, 4]` and `[2]`. -/
theorem run_new_two_sequences :
    ((Tree.run 4 (new [[1, 4], [2]] 100 fun a b => decide (a < b))).1.map Tree.at).Perm [[1, 4], [2]].flatten ∧
      ((Tree.run 4 (new [[1, 4], [2]] 100 fun a b => decide (a < b))).1.map Tree.at).Pairwise
        (fun a b => decide (b < a) = false) ∧
      (∀ t ∈ (Tree.run 4 (new [[1, 4], [2]] 100 fun a b => decide (a < b))).1,
        2 ≤ (t.nodes 0).index.toNat ∧ (t.nodes 0).index.toNat < 2 * 2 ∧
          (t.nodes (t.nodes 0).index.toNat).value = t.at) ∧
      ((Tree.run 4 (new [[1, 4], [2]] 100 fun a b => decide (a < b))).2.next).1 = false ∧
      (Tree.run 4 (new [[1, 4], [2]] 100 fun a b => decide (a < b))).2.closed.Perm (List.range' 2 2) ∧
      (Tree.run 4 (new [[1, 4], [2]] 100 fun a b => decide (a < b))).2.close.closed =
        (Tree.run 4 (new [[1, 4], [2]] 100 fun a b => decide (a < b))).2.closed :=
  run_new [[1, 4], [2]] 100 _ natLt_isStrictWeakOrder (by decide) (by decide) 4 (by decide)

end Thanos.LoserTree
