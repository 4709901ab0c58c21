import Thanos.LoserTree.Tree
import Thanos.Lib.HeapPos
import Mathlib.Order.Defs.Unbundled

/-! # The games of the loser tree

Each internal node stores the leaf that lost the game between its children's
winners. Read back, the stored losers determine the winner of every subtree
(`winnerOf`): the winner of a node is the winner of the child whose winner it does
not store. `GameOk` says that the game at a node has been played: the stored leaf
is one of its children's winners, its value is cached, and it does not beat the
winner. `Played` says this of every internal node, with node `0` holding the
overall winner; under a strict weak order the winner is then a minimum of the
leaves (`Played.winner_min`).

`playGame` plays every game below a node (`playGame_spec`), so `initialize`
establishes `Played`; after the winner's sequence moves on, `replayGames` replays
the games on its path and restores it (`replayGames_played`). The loop is carried by
`Replaying`: the games off the path above the current node are played, and each
node on the path above it still stores the winner of its other child. -/

namespace Thanos.LoserTree

open HeapPos

variable {E : Type}

section Order

variable {less : E → E → Bool} (hwo : IsStrictWeakOrder E fun a b => less a b = true)
include hwo

theorem less_asymm {a b : E} (h : less a b = true) : less b a = false := by
  by_contra hba
  exact hwo.irrefl a (hwo.trans a b a h (by simpa using hba))

/-- Under a strict weak order, "not less" is transitive. -/
theorem not_less_trans {a b c : E} (hab : less a b = false) (hbc : less b c = false) :
    less a c = false := by
  by_contra hac
  simp only [Bool.not_eq_false] at hac
  -- `b` is incomparable with `a` and with `c`, so `a` and `c` are too
  have hba : ¬ less b a = true := fun h => by simp [hwo.trans b a c h hac] at hbc
  have hcb : ¬ less c b = true := fun h => by simp [hwo.trans a c b hac h] at hab
  exact (hwo.incomp_trans a b c ⟨by simp [hab], hba⟩ ⟨by simp [hbc], hcb⟩).1 hac

end Order

/-- The winner of the subtree at `p` as the stored losers tell it: a leaf (or node
`0`) is its own winner, and an internal node's winner is the winner of the child
whose winner it does not store. -/
def winnerOf (half : Nat) (nodes : Nat → Node E) (p : Nat) : Nat :=
  if half ≤ p ∨ p = 0 then p
  else
    let a := winnerOf half nodes (2 * p)
    let b := winnerOf half nodes (2 * p + 1)
    if (nodes p).index = a then b else a
termination_by half - p

/-- `c` and `c'` are the two children of `p`, in either order. -/
def Children (p c c' : Nat) : Prop := (c = 2 * p ∧ c' = 2 * p + 1) ∨ (c = 2 * p + 1 ∧ c' = 2 * p)

theorem Children.symm {p c c' : Nat} (h : Children p c c') : Children p c' c := by
  unfold Children at *; omega

theorem Children.half_eq {p c c' : Nat} (h : Children p c c') : c / 2 = p := by
  unfold Children at h; omega

/-- A child of `p` lies below `p` in the other child's place only if `p = 0`. -/
theorem Children.not_below {p c c' q : Nat} (hp : 1 ≤ p) (h : Children p c c') (hc : Below q c) :
    ¬ Below q c' := by
  rcases h with ⟨rfl, rfl⟩ | ⟨rfl, rfl⟩
  · exact not_below_both hp hc
  · exact fun h' => not_below_both hp h' hc

/-- Two pairs of children of one node are the same pair, in one order or the other. -/
theorem Children.cases {p c c' d d' : Nat} (h : Children p c c') (h' : Children p d d') :
    (d = c ∧ d' = c') ∨ (d = c' ∧ d' = c) := by
  unfold Children at *; omega

/-- A position and its sibling are the children of its parent. -/
theorem children_half (c : Nat) : Children (c / 2) c (if c % 2 = 0 then c + 1 else c - 1) := by
  unfold Children; split_ifs <;> omega

theorem Children.below {p c c' : Nat} (h : Children p c c') : Below c p := h.half_eq ▸ below_half c

theorem Children.pos {p c c' : Nat} (hp : 1 ≤ p) (h : Children p c c') : p < c := by
  unfold Children at h; omega

theorem Children.not_below_parent {p c c' : Nat} (hp : 1 ≤ p) (h : Children p c c') : ¬ Below p c :=
  fun hb => by have := hb.le; have := h.pos hp; omega

/-- A position below `p ≥ 1` other than `p` is below one of its children. -/
theorem exists_child_of_below {q p : Nat} (hq : Below q p) (hne : q ≠ p) :
    ∃ c c', Children p c c' ∧ Below q c := by
  rcases below_cases hq with h | h | h
  · exact absurd h hne
  · exact ⟨_, _, Or.inl ⟨rfl, rfl⟩, h⟩
  · exact ⟨_, _, Or.inr ⟨rfl, rfl⟩, h⟩

section Winner

variable {half : Nat} {nodes : Nat → Node E}

theorem winnerOf_of_le {p : Nat} (h : half ≤ p) : winnerOf half nodes p = p := by
  rw [winnerOf, if_pos (Or.inl h)]

theorem winnerOf_internal {p : Nat} (h1 : 1 ≤ p) (h2 : p < half) :
    winnerOf half nodes p =
      if (nodes p).index = winnerOf half nodes (2 * p) then winnerOf half nodes (2 * p + 1)
      else winnerOf half nodes (2 * p) := by
  rw [winnerOf, if_neg (by omega)]

theorem winnerOf_below (p : Nat) : Below (winnerOf half nodes p) p := by
  fun_induction winnerOf half nodes p with
  | case1 p _ => exact below_refl p
  | case2 p _ _ _ _ _ hb => exact hb.right
  | case3 p _ _ _ ha _ => exact ha.left

/-- The winner of a node at or below `1` is a leaf. -/
theorem le_winnerOf {p : Nat} (hp : 1 ≤ p) : half ≤ winnerOf half nodes p := by
  fun_induction winnerOf half nodes p with
  | case1 p h => omega
  | case2 p _ _ _ _ _ hb => exact hb (by omega)
  | case3 p _ _ _ ha _ => exact ha (by omega)

theorem winnerOf_lt {p : Nat} (hp : p < 2 * half) : winnerOf half nodes p < 2 * half := by
  fun_induction winnerOf half nodes p with
  | case1 p h => exact hp
  | case2 p _ _ _ _ _ hb => exact hb (by omega)
  | case3 p _ _ _ ha _ => exact ha (by omega)

theorem winnerOf_ne_zero {p : Nat} (hp : 1 ≤ p) (hh : 1 ≤ half) : winnerOf half nodes p ≠ 0 := by
  have : half ≤ winnerOf half nodes p := le_winnerOf hp
  omega

theorem winnerOf_eq_or {p c c' : Nat} (h1 : 1 ≤ p) (h2 : p < half) (hcc : Children p c c') :
    winnerOf half nodes p = winnerOf half nodes c ∨ winnerOf half nodes p = winnerOf half nodes c' := by
  rw [winnerOf_internal h1 h2]
  rcases hcc with ⟨rfl, rfl⟩ | ⟨rfl, rfl⟩ <;> split_ifs <;> simp

/-- The two children of a node have different winners. -/
theorem winnerOf_ne_of_children {p c c' : Nat} (hp : 1 ≤ p) (h : Children p c c') :
    winnerOf half nodes c ≠ winnerOf half nodes c' := fun he =>
  h.not_below hp (winnerOf_below c) (he ▸ winnerOf_below c')

/-- An internal node that stores one child's winner is won by the other child's. -/
theorem winnerOf_of_index {p c c' : Nat} (h1 : 1 ≤ p) (h2 : p < half) (hcc : Children p c c')
    (h : (nodes p).index = winnerOf half nodes c) : winnerOf half nodes p = winnerOf half nodes c' := by
  have hne : winnerOf half nodes c ≠ winnerOf half nodes c' := winnerOf_ne_of_children h1 hcc
  rw [winnerOf_internal h1 h2]
  rcases hcc with ⟨rfl, rfl⟩ | ⟨rfl, rfl⟩
  · simp [h]
  · rw [h, if_neg (by exact_mod_cast hne)]

/-- The winner of a subtree reads only the stored losers inside it. -/
theorem winnerOf_congr {nodes' : Nat → Node E} {p : Nat}
    (h : ∀ q, Below q p → q < half → (nodes' q).index = (nodes q).index) :
    winnerOf half nodes' p = winnerOf half nodes p := by
  fun_induction winnerOf half nodes p with
  | case1 p hp => rw [winnerOf, if_pos hp]
  | case2 p hp _ _ hidx iha ihb =>
    rw [winnerOf, if_neg hp]
    simp only [iha fun q hq => h q hq.left, ihb fun q hq => h q hq.right, h p (below_refl p) (by omega)]
    exact if_pos hidx
  | case3 p hp _ hidx iha ihb =>
    rw [winnerOf, if_neg hp]
    simp only [iha fun q hq => h q hq.left, ihb fun q hq => h q hq.right, h p (below_refl p) (by omega)]
    exact if_neg hidx

/-- If the root is won by `w`, so is every node on the path to `w`. -/
theorem winnerOf_of_below_root {w p : Nat} (hroot : winnerOf half nodes 1 = w) (hp : 1 ≤ p)
    (hw : Below w p) : winnerOf half nodes p = w := by
  induction p using Nat.strong_induction_on with
  | _ p ih =>
    rcases Nat.lt_or_ge p 2 with hp2 | hp2
    · obtain rfl : p = 1 := by omega
      exact hroot
    · -- the parent is won by `w`, and `p` is its child on the path to `w`
      have hpar : winnerOf half nodes (p / 2) = w :=
        ih (p / 2) (by omega) (by omega) (hw.trans (below_half p))
      have hcc := children_half p
      have hlt : p / 2 < half := by
        by_contra hge
        have := hw.le
        rw [winnerOf_of_le (by omega)] at hpar
        omega
      have hor : winnerOf half nodes (p / 2) = winnerOf half nodes p ∨
          winnerOf half nodes (p / 2) = winnerOf half nodes (if p % 2 = 0 then p + 1 else p - 1) :=
        winnerOf_eq_or (by omega) hlt hcc
      rcases hor with h | h
      · rw [← h]; exact hpar
      · have hsib : Below w (if p % 2 = 0 then p + 1 else p - 1) := by
          rw [← hpar, h]
          exact winnerOf_below _
        exact absurd hsib (hcc.not_below (by omega) hw)

end Winner

/-- The game at internal node `p` has been played: it stores the winner of one of
its children, with that leaf's value, and that leaf does not beat the node's
winner. -/
structure GameOk (less : E → E → Bool) (half : Nat) (nodes : Nat → Node E) (p : Nat) : Prop where
  loser : ∃ c c', Children p c c' ∧ (nodes p).index = winnerOf half nodes c
  cached : (nodes p).value = (nodes (nodes p).index.toNat).value
  beaten : less (nodes p).value (nodes (winnerOf half nodes p)).value = false

/-- Every game has been played, and node `0` holds the winner of the tree with its
value. -/
structure Played (less : E → E → Bool) (half : Nat) (nodes : Nat → Node E) : Prop where
  games : ∀ p, 1 ≤ p → p < half → GameOk less half nodes p
  root : (nodes 0).index = winnerOf half nodes 1
  rootValue : (nodes 0).value = (nodes (winnerOf half nodes 1)).value

section Games

variable {less : E → E → Bool} {half : Nat} {nodes : Nat → Node E}

/-- A played game reads only the subtree of its node. -/
theorem GameOk.congr {nodes' : Nat → Node E} {p : Nat} (g : GameOk less half nodes p)
    (h : ∀ q, Below q p → nodes' q = nodes q) : GameOk less half nodes' p := by
  have hw : ∀ r, Below r p → winnerOf half nodes' r = winnerOf half nodes r :=
    fun r hr => winnerOf_congr fun q hq _ => by rw [h q (hq.trans hr)]
  obtain ⟨c, c', hcc, hidx⟩ := g.loser
  have hl : (nodes p).index.toNat = winnerOf half nodes c := by rw [hidx]; simp
  refine ⟨⟨c, c', hcc, ?_⟩, ?_, ?_⟩
  · rw [h p (below_refl p), hw c hcc.below, hidx]
  · rw [h p (below_refl p), hl, h _ ((winnerOf_below c).trans hcc.below), ← hl, g.cached]
  · rw [h p (below_refl p), hw p (below_refl p), h _ (winnerOf_below p)]
    exact g.beaten

theorem winnerOf_setNode_of_not_below {r p : Nat} {n : Node E} (h : ¬ Below p r) :
    winnerOf half (setNode nodes p n) r = winnerOf half nodes r :=
  winnerOf_congr fun q hq _ => by rw [setNode_of_ne nodes n (show q ≠ p from fun he => h (he ▸ hq))]

theorem GameOk.setNode_of_not_below {r p : Nat} {n : Node E} (g : GameOk less half nodes r)
    (h : ¬ Below p r) : GameOk less half (setNode nodes p n) r :=
  g.congr fun q hq => setNode_of_ne nodes n (show q ≠ p from fun he => h (he ▸ hq))

/-- Storing a child's winner at `p` makes the other child's winner the winner of `p`. -/
theorem winnerOf_setNode_loser {p c c' : Nat} {v : E} (h1 : 1 ≤ p) (h2 : p < half)
    (hcc : Children p c c') :
    winnerOf half (setNode nodes p { nodes p with index := (winnerOf half nodes c : Int), value := v }) p =
      winnerOf half nodes c' := by
  refine (winnerOf_of_index h1 h2 hcc ?_).trans
    (winnerOf_setNode_of_not_below (hcc.symm.not_below_parent h1))
  simp only [setNode_same, winnerOf_setNode_of_not_below (hcc.not_below_parent h1)]

/-- Storing the loser of the game between the children's winners, with its value,
plays the game at `p`. -/
theorem gameOk_setNode_loser {p c c' : Nat} (h1 : 1 ≤ p) (h2 : p < half) (hcc : Children p c c')
    (hlf : half ≤ winnerOf half nodes c)
    (hbeat : less (nodes (winnerOf half nodes c)).value (nodes (winnerOf half nodes c')).value = false) :
    GameOk less half
      (setNode nodes p { nodes p with index := (winnerOf half nodes c : Int),
                                      value := (nodes (winnerOf half nodes c)).value }) p := by
  have hlc : winnerOf half nodes c ≠ p := by omega
  have hlc' : winnerOf half nodes c' ≠ p := by
    have : half ≤ winnerOf half nodes c' := le_winnerOf (by have := hcc.symm.pos h1; omega)
    omega
  refine ⟨⟨c, c', hcc, ?_⟩, ?_, ?_⟩
  · simp only [setNode_same, winnerOf_setNode_of_not_below (hcc.not_below_parent h1)]
  · simp [setNode_of_ne _ _ hlc]
  · rw [winnerOf_setNode_loser h1 h2 hcc, setNode_of_ne _ _ hlc']
    simpa using hbeat

variable (hwo : IsStrictWeakOrder E fun a b => less a b = true)
include hwo

/-- A value that does not beat a child's winner does not beat the node's winner. -/
theorem GameOk.not_less_of_child {p c c' : Nat} {x : E} (g : GameOk less half nodes p)
    (h1 : 1 ≤ p) (h2 : p < half) (hcc : Children p c c')
    (hx : less x (nodes (winnerOf half nodes c)).value = false) :
    less x (nodes (winnerOf half nodes p)).value = false := by
  have hor : winnerOf half nodes p = winnerOf half nodes c ∨ winnerOf half nodes p = winnerOf half nodes c' :=
    winnerOf_eq_or h1 h2 hcc
  rcases hor with hw | hw
  · rwa [hw]
  · obtain ⟨d, d', hdd, hidx⟩ := g.loser
    rcases hcc.cases hdd with ⟨rfl, rfl⟩ | ⟨rfl, rfl⟩
    · -- the node stores `c`'s winner, which does not beat the node's winner
      have hv : (nodes p).value = (nodes (winnerOf half nodes d)).value := by
        rw [g.cached, hidx]; simp
      exact not_less_trans hwo hx (hv ▸ g.beaten)
    · have := winnerOf_of_index h1 h2 hdd hidx
      exact absurd (hw.symm.trans this).symm (winnerOf_ne_of_children h1 hcc)

/-- Once every game is played, no leaf beats the winner of a subtree it is in. -/
theorem winnerOf_min (hg : ∀ p, 1 ≤ p → p < half → GameOk less half nodes p) {p q : Nat}
    (hp : 1 ≤ p) (hq : Below q p) (hq1 : half ≤ q) (hq2 : q < 2 * half) :
    less (nodes q).value (nodes (winnerOf half nodes p)).value = false := by
  obtain ⟨j, rfl⟩ := hq
  -- induction on the number of halvings from the leaf up to the node
  induction j with
  | zero => rw [Nat.pow_zero, Nat.div_one, winnerOf_of_le hq1]; simpa using hwo.irrefl _
  | succ j ih =>
    have hdiv : q / 2 ^ (j + 1) = q / 2 ^ j / 2 := by rw [Nat.pow_succ, Nat.div_div_eq_div_mul]
    have hcc := children_half (q / 2 ^ j)
    rw [← hdiv] at hcc
    have hlt : q / 2 ^ (j + 1) < half := by
      have := div_pow_le_half (a := q) (k := j + 1) (by omega)
      omega
    exact (hg _ hp hlt).not_less_of_child hwo hp hlt hcc (ih (by omega))

end Games

/-- What `playGame` at `p` leaves: only the internal nodes below `p` have changed,
`w` is the winner of `p`, and every game below `p` has been played. -/
structure PlayedBelow (less : E → E → Bool) (half : Nat) (nodes nodes' : Nat → Node E) (p w : Nat) : Prop where
  frame : ∀ q, ¬ (Below q p ∧ q < half) → nodes' q = nodes q
  winner : w = winnerOf half nodes' p
  games : ∀ q, Below q p → q < half → GameOk less half nodes' q

section PlayGame

variable {less : E → E → Bool} {half : Nat}

/-- The last step of `playGame` at `p`: with the games below played, storing the
loser plays the game at `p`. -/
theorem PlayedBelow.play {nodes nodes' : Nat → Node E} {p c c' : Nat} (h1 : 1 ≤ p) (h2 : p < half)
    (hcc : Children p c c') (frame : ∀ q, ¬ (Below q p ∧ q < half) → nodes' q = nodes q)
    (games : ∀ q, Below q p → q ≠ p → q < half → GameOk less half nodes' q)
    (hbeat : less (nodes' (winnerOf half nodes' c)).value (nodes' (winnerOf half nodes' c')).value = false) :
    PlayedBelow less half nodes
      (setNode nodes' p { nodes' p with index := (winnerOf half nodes' c : Int),
                                        value := (nodes' (winnerOf half nodes' c)).value }) p
      (winnerOf half nodes' c') := by
  refine ⟨fun q hq => ?_, (winnerOf_setNode_loser h1 h2 hcc).symm, fun q hq hq2 => ?_⟩
  · have hqp : q ≠ p := fun he => hq ⟨he ▸ below_refl p, he ▸ h2⟩
    rw [setNode_of_ne _ _ hqp, frame q hq]
  · by_cases hqp : q = p
    · subst hqp
      exact gameOk_setNode_loser h1 h2 hcc (le_winnerOf (by have := hcc.pos h1; omega)) hbeat
    · exact (games q hq hqp hq2).setNode_of_not_below fun hb => hqp (Nat.le_antisymm hq.le hb.le).symm

variable (hwo : IsStrictWeakOrder E fun a b => less a b = true)
include hwo

/-- `playGame` at `p ≥ 1` plays every game below `p` and returns its winner. -/
theorem playGame_spec {nodes : Nat → Node E} {p : Nat} (hp : 1 ≤ p) :
    PlayedBelow less half nodes (playGame less half nodes p).2 p (playGame less half nodes p).1 := by
  fun_induction playGame less half nodes p with
  | case1 nodes p h =>
    refine ⟨fun _ _ => rfl, by rw [winnerOf, if_pos h], fun q hq hq2 => ?_⟩
    have := hq.le
    omega
  | case2 nodes p h left n1 hl right n2 hr loser winner hlw ihl ihr =>
    have h2 : p < half := by omega
    rw [hl] at ihl
    rw [hr] at ihr
    dsimp only at ihl ihr
    obtain ⟨fl, wl, gl⟩ := ihl (by omega)
    obtain ⟨fr, wr, gr⟩ := ihr (by omega)
    rw [Nat.mul_comm] at fl wl gl fr wr gr
    -- the games below `2p + 1` leave the subtree at `2p` as it was
    have hagree : ∀ q, Below q (2 * p) → n2 q = n1 q :=
      fun q hq => fr q fun ⟨hq', _⟩ => not_below_both hp hq hq'
    have hwl : winnerOf half n2 (2 * p) = left :=
      (winnerOf_congr fun q hq _ => by rw [hagree q hq]).trans wl.symm
    have frame : ∀ q, ¬ (Below q p ∧ q < half) → n2 q = nodes q := fun q hq => by
      rw [fr q fun ⟨hb, hq2⟩ => hq ⟨hb.right, hq2⟩, fl q fun ⟨hb, hq2⟩ => hq ⟨hb.left, hq2⟩]
    have games : ∀ q, Below q p → q ≠ p → q < half → GameOk less half n2 q := by
      intro q hq hqp hq2
      rcases below_cases hq with h' | h' | h'
      · exact absurd h' hqp
      · exact (gl q h' hq2).congr fun r hr => hagree r (hr.trans h')
      · exact gr q h' hq2
    subst hwl wr
    split at hlw <;> obtain ⟨rfl, rfl⟩ := Prod.mk.inj hlw
    · -- the right child's winner lost
      next hless => exact PlayedBelow.play hp h2 (Or.inr ⟨rfl, rfl⟩) frame games (less_asymm hwo hless)
    · next hless => exact PlayedBelow.play hp h2 (Or.inl ⟨rfl, rfl⟩) frame games (by simpa using hless)

/-- `initialize` plays every game and leaves the leaves as they were. -/
theorem initialize_played (t : Tree E) (hh : 1 ≤ t.len / 2) (hl : t.less = less) :
    Played less (t.len / 2) ( Tree.initialize t).nodes ∧
      ∀ q, t.len / 2 ≤ q → ( Tree.initialize t).nodes q = t.nodes q := by
  subst hl
  have hspec : PlayedBelow t.less (t.len / 2) t.nodes (playGame t.less (t.len / 2) t.nodes 1).2 1
      (playGame t.less (t.len / 2) t.nodes 1).1 := playGame_spec hwo le_rfl
  obtain ⟨frame, winner, games⟩ := hspec
  rcases h : playGame t.less (t.len / 2) t.nodes 1 with ⟨w, nodes⟩
  rw [h] at frame winner games
  dsimp only at frame winner games
  have hw0 : w ≠ 0 := winner ▸ winnerOf_ne_zero le_rfl hh
  have h0 : ∀ p, 1 ≤ p → ¬ Below 0 p := fun p hp hb => by have := hb.le; omega
  simp only [ Tree.initialize, h]
  refine ⟨⟨fun p hp1 hp2 => ?_, ?_, ?_⟩, fun q hq => ?_⟩
  · exact (games p (below_one hp1) hp2).setNode_of_not_below (h0 p hp1)
  · rw [winnerOf_setNode_of_not_below (h0 1 le_rfl), ← winner]
    simp
  · rw [winnerOf_setNode_of_not_below (h0 1 le_rfl), ← winner, setNode_of_ne _ _ hw0]
    simp
  · rw [setNode_of_ne _ _ (by omega), frame q fun ⟨_, hq2⟩ => by omega]

end PlayGame

/-- Node `p`, above `m` on the replayed path, has not been replayed yet: it stores
the winner of its child off the path, with that leaf's value. -/
structure Pending (half : Nat) (nodes : Nat → Node E) (m p : Nat) : Prop where
  off : ∃ c c', Children p c c' ∧ Below m c' ∧ (nodes p).index = winnerOf half nodes c
  cached : (nodes p).value = (nodes (nodes p).index.toNat).value

/-- The loop of `replayGames` after node `m`: `pos` is the winner of `m` with its
value, every game but those above `m` is played, and those above are pending. -/
structure Replaying (less : E → E → Bool) (half : Nat) (nodes : Nat → Node E) (m pos : Nat)
    (winningValue : E) : Prop where
  pos_eq : pos = winnerOf half nodes m
  value_eq : winningValue = (nodes pos).value
  games : ∀ p, 1 ≤ p → p < half → ¬ Below (m / 2) p → GameOk less half nodes p
  pending : ∀ p, 1 ≤ p → p < half → Below (m / 2) p → Pending half nodes m p

section Replay

variable {less : E → E → Bool} {half : Nat} {nodes : Nat → Node E}

/-- A pending node stores the winner of the child off the path through `m`. -/
theorem Pending.index_eq {m p c c' : Nat} (pd : Pending half nodes m p) (hp : 1 ≤ p)
    (hcc : Children p c c') (hm : Below m c) : (nodes p).index = winnerOf half nodes c' := by
  obtain ⟨d, d', hdd, hmd', hidx⟩ := pd.off
  rcases hcc.cases hdd with ⟨rfl, rfl⟩ | ⟨rfl, rfl⟩
  · exact absurd hmd' (hcc.not_below hp hm)
  · exact hidx

/-- A node pending above `m` is pending above any node between. -/
theorem Pending.up {m n p : Nat} (pd : Pending half nodes m p) (hp : 1 ≤ p) (hmn : Below m n)
    (hnp : Below n p) (hne : n ≠ p) : Pending half nodes n p := by
  obtain ⟨c, c', hcc, hmc', hidx⟩ := pd.off
  obtain ⟨d, d', hdd, hnd⟩ := exists_child_of_below hnp hne
  rcases hcc.cases hdd with ⟨hdc, -⟩ | ⟨hdc, -⟩
  · exact absurd hmc' (hcc.not_below hp (hdc ▸ hmn.trans hnd))
  · exact ⟨⟨c, c', hcc, hdc ▸ hnd, hidx⟩, pd.cached⟩

/-- Replaying the node `n` on the path leaves the nodes pending above it pending. -/
theorem Pending.setNode {n p : Nat} {x : Node E} (pd : Pending half nodes n p) (hp : 1 ≤ p)
    (hpn : p ≠ n) : Pending half (setNode nodes n x) n p := by
  obtain ⟨c, c', hcc, hnc', hidx⟩ := pd.off
  have hnc : ¬ Below n c := hcc.symm.not_below hp hnc'
  have hl : (nodes p).index.toNat = winnerOf half nodes c := by rw [hidx]; simp
  have hln : winnerOf half nodes c ≠ n := fun he => hnc (he ▸ winnerOf_below c)
  refine ⟨⟨c, c', hcc, hnc', ?_⟩, ?_⟩
  · rw [setNode_of_ne _ _ hpn, winnerOf_setNode_of_not_below hnc, hidx]
  · rw [setNode_of_ne _ _ hpn, hl, setNode_of_ne _ _ hln, ← hl, pd.cached]

/-- The games off the path above `m / 2` are those off the path above `m`, and `m / 2`. -/
theorem not_below_half_half {m p : Nat} (hm : 2 ≤ m) (h : ¬ Below (m / 2 / 2) p) (hpn : p ≠ m / 2) :
    ¬ Below (m / 2) p := fun hb => h ((below_half_iff (by omega)).mpr ⟨hb, hpn⟩)

/-- The nodes pending above `m / 2` were pending above `m`. -/
theorem pending_of_below_half_half {m p : Nat} (hm : 2 ≤ m) (h : Below (m / 2 / 2) p) :
    Below (m / 2) p ∧ p ≠ m / 2 := (below_half_iff (by omega)).mp h

/-- The loop's step when the winner so far is not beaten: the node keeps its leaf. -/
theorem Replaying.keep {m pos : Nat} {wv : E} (inv : Replaying less half nodes m pos wv) (hm : 2 ≤ m)
    (hm2 : m < 2 * half) (hless : less (nodes (m / 2)).value wv = false) :
    Replaying less half nodes (m / 2) pos wv := by
  have hn1 : 1 ≤ m / 2 := by omega
  have hn2 : m / 2 < half := by omega
  have hcc := children_half m
  have pd := inv.pending (m / 2) hn1 hn2 (below_refl _)
  have hidx := pd.index_eq hn1 hcc (below_refl m)
  have hwin : winnerOf half nodes (m / 2) = pos := (winnerOf_of_index hn1 hn2 hcc.symm hidx).trans inv.pos_eq.symm
  refine ⟨hwin.symm, inv.value_eq, fun p hp1 hp2 hp => ?_, fun p hp1 hp2 hp => ?_⟩
  · by_cases hpn : p = m / 2
    · subst hpn
      refine ⟨⟨_, _, hcc.symm, hidx⟩, pd.cached, ?_⟩
      rw [hwin, ← inv.value_eq]
      exact hless
    · exact inv.games p hp1 hp2 (not_below_half_half hm hp hpn)
  · obtain ⟨hb, hpn⟩ := pending_of_below_half_half hm hp
    exact (inv.pending p hp1 hp2 hb).up hp1 hcc.below hb (Ne.symm hpn)

/-- Once the winner's leaf has moved on, the replay starts from it with every game
off its path played and every game on it pending. -/
theorem Played.replaying (hP : Played less half nodes) (hh : 1 ≤ half) (x : Node E) :
    Replaying less half (setNode nodes (winnerOf half nodes 1) x) (winnerOf half nodes 1)
      (winnerOf half nodes 1) (setNode nodes (winnerOf half nodes 1) x (winnerOf half nodes 1)).value := by
  have hw1 : half ≤ winnerOf half nodes 1 := le_winnerOf le_rfl
  have hw : 1 ≤ winnerOf half nodes 1 := by omega
  refine ⟨(winnerOf_of_le hw1).symm, rfl, fun p hp1 hp2 hp => ?_, fun p hp1 hp2 hp => ?_⟩
  · refine (hP.games p hp1 hp2).setNode_of_not_below fun hb => hp ((below_half_iff hw).mpr ⟨hb, ?_⟩)
    omega
  · obtain ⟨hb, hpw⟩ := (below_half_iff hw).mp hp
    have g := hP.games p hp1 hp2
    obtain ⟨c, c', hcc, hidx⟩ := g.loser
    -- the path to the winner goes through the child whose winner `p` does not store
    have hc' : Below (winnerOf half nodes 1) c' := by
      rw [← winnerOf_of_below_root rfl hp1 hb, winnerOf_of_index hp1 hp2 hcc hidx]
      exact winnerOf_below c'
    exact Pending.setNode ⟨⟨c, c', hcc, hc', hidx⟩, g.cached⟩ hp1 hpw

variable (hwo : IsStrictWeakOrder E fun a b => less a b = true)
include hwo

/-- The loop's step when the node's stored leaf beats the winner so far: the node
takes the winner so far, and its stored leaf goes on up. -/
theorem Replaying.swap {m pos : Nat} {wv : E} (inv : Replaying less half nodes m pos wv) (hm : 2 ≤ m)
    (hm2 : m < 2 * half) (hless : less (nodes (m / 2)).value wv = true) :
    Replaying less half (setNode nodes (m / 2) { nodes (m / 2) with index := (pos : Int), value := wv }) (m / 2)
      (nodes (m / 2)).index.toNat (nodes (m / 2)).value := by
  have hn1 : 1 ≤ m / 2 := by omega
  have hn2 : m / 2 < half := by omega
  have hcc := children_half m
  have pd := inv.pending (m / 2) hn1 hn2 (below_refl _)
  have hidx := pd.index_eq hn1 hcc (below_refl m)
  have hpos := inv.pos_eq
  have hwv : wv = (nodes (winnerOf half nodes m)).value := hpos ▸ inv.value_eq
  subst hpos hwv
  have hs : half ≤ winnerOf half nodes (if m % 2 = 0 then m + 1 else m - 1) :=
    le_winnerOf (by have := hcc.symm.pos hn1; omega)
  refine ⟨?_, ?_, fun p hp1 hp2 hp => ?_, fun p hp1 hp2 hp => ?_⟩
  · rw [winnerOf_setNode_loser hn1 hn2 hcc, hidx]
    simp
  · rw [pd.cached, hidx, setNode_of_ne _ _ (by simp; omega)]
  · by_cases hpn : p = m / 2
    · subst hpn
      have hv : (nodes (m / 2)).value =
          (nodes (winnerOf half nodes (if m % 2 = 0 then m + 1 else m - 1))).value := by
        rw [pd.cached, hidx]; simp
      rw [hv] at hless
      exact gameOk_setNode_loser hn1 hn2 hcc (le_winnerOf (by omega)) (less_asymm hwo hless)
    · have hnb := not_below_half_half hm hp hpn
      exact (inv.games p hp1 hp2 hnb).setNode_of_not_below hnb
  · obtain ⟨hb, hpn⟩ := pending_of_below_half_half hm hp
    exact ((inv.pending p hp1 hp2 hb).up hp1 hcc.below hb (Ne.symm hpn)).setNode hp1 hpn

/-- The loop of `replayGames` ends with every game played and the leaves as they were. -/
theorem replayLoop_played {n pos : Nat} {wv : E} {nodes : Nat → Node E} {m : Nat} (hm : 1 ≤ m)
    (hm2 : m < 2 * half) (hn : n = m / 2) (inv : Replaying less half nodes m pos wv) :
    Played less half (replayLoop less n pos wv nodes) ∧
      ∀ q, half ≤ q → replayLoop less n pos wv nodes q = nodes q := by
  fun_induction replayLoop less n pos wv nodes generalizing m with
  | case1 pos wv nodes =>
    -- the path has reached the root `1`; node `0` takes the winner
    obtain rfl : m = 1 := by omega
    have h0 : ∀ p, 1 ≤ p → ¬ Below 0 p := fun p hp hb => by have := hb.le; omega
    have hw0 : pos ≠ 0 := inv.pos_eq ▸ winnerOf_ne_zero le_rfl (by omega)
    refine ⟨⟨fun p hp1 hp2 => ?_, ?_, ?_⟩, fun q hq => setNode_of_ne _ _ (by omega)⟩
    · exact (inv.games p hp1 hp2 (h0 p hp1)).setNode_of_not_below (h0 p hp1)
    · rw [winnerOf_setNode_of_not_below (h0 1 le_rfl), ← inv.pos_eq]
      simp
    · rw [winnerOf_setNode_of_not_below (h0 1 le_rfl), ← inv.pos_eq, setNode_of_ne _ _ hw0]
      simpa using inv.value_eq
  | case2 n pos wv nodes hn0 _ hless =>
    rename_i ih
    subst hn
    have hstep := inv.swap hwo (by omega) hm2 hless
    obtain ⟨hp, hf⟩ := ih (m := m / 2) (by omega) (by omega) (parent_eq _) hstep
    refine ⟨hp, fun q hq => ?_⟩
    rw [hf q hq, setNode_of_ne _ _ (by omega)]
  | case3 n pos wv nodes hn0 _ hless =>
    rename_i ih
    subst hn
    exact ih (m := m / 2) (by omega) (by omega) (parent_eq _) (inv.keep (by omega) hm2 (by simpa using hless))

/-- After the winner's leaf has moved on, `replayGames` replays its path and every
game is played again; the leaves are left as they are. -/
theorem replayGames_played (hP : Played less half nodes) (hh : 1 ≤ half) (x : Node E) :
    Played less half (replayGames less (setNode nodes (winnerOf half nodes 1) x) (winnerOf half nodes 1)) ∧
      ∀ q, half ≤ q → replayGames less (setNode nodes (winnerOf half nodes 1) x) (winnerOf half nodes 1) q =
        setNode nodes (winnerOf half nodes 1) x q :=
  replayLoop_played hwo (by have : half ≤ winnerOf half nodes 1 := le_winnerOf le_rfl; omega)
    (winnerOf_lt (by omega)) (parent_eq _) (hP.replaying hh x)

end Replay

end Thanos.LoserTree
