import Mathlib

/-! # Positions of an implicit binary tree

In an array laid out as a binary tree, position `p` has the children `2p` and
`2p + 1` and the parent `p / 2`. `Below q p` says that `q` lies in the subtree at
`p`: halving `q` some number of times gives `p`. The two subtrees of a position
are disjoint (`not_below_both`), and a position in the subtree at `p ≥ 1` is `p`
itself or lies in the subtree of one of its children (`below_cases`). Nothing here
is specific to one program. -/

namespace HeapPos

def Below (q p : Nat) : Prop := ∃ j, q / 2 ^ j = p

theorem below_refl (p : Nat) : Below p p := ⟨0, by simp⟩

theorem Below.trans {a b c : Nat} (hab : Below a b) (hbc : Below b c) : Below a c := by
  obtain ⟨i, rfl⟩ := hab
  obtain ⟨j, rfl⟩ := hbc
  exact ⟨i + j, by rw [Nat.pow_add, Nat.div_div_eq_div_mul]⟩

theorem below_half (q : Nat) : Below q (q / 2) := ⟨1, by simp⟩

theorem Below.of_child {q c p : Nat} (h : Below q c) (hc : c / 2 = p) : Below q p :=
  h.trans (hc ▸ below_half c)

theorem Below.left {q p : Nat} (h : Below q (2 * p)) : Below q p := h.of_child (by omega)

theorem Below.right {q p : Nat} (h : Below q (2 * p + 1)) : Below q p := h.of_child (by omega)

/-- Every position but `0` is in the subtree at `1`. -/
theorem below_one {q : Nat} (hq : 1 ≤ q) : Below q 1 := by
  induction q using Nat.strong_induction_on with
  | _ q ih =>
    rcases Nat.lt_or_ge q 2 with h | h
    · obtain rfl : q = 1 := by omega
      exact below_refl 1
    · exact (below_half q).trans (ih (q / 2) (by omega) (by omega))

theorem Below.le {q p : Nat} (h : Below q p) : p ≤ q := by
  obtain ⟨j, rfl⟩ := h
  exact Nat.div_le_self _ _

/-- A position in the subtree at `p` is `p` or in one of its children's. -/
theorem below_cases {q p : Nat} (h : Below q p) :
    q = p ∨ Below q (2 * p) ∨ Below q (2 * p + 1) := by
  obtain ⟨j, hj⟩ := h
  cases j with
  | zero => left; simpa using hj
  | succ j =>
    right
    have hc : q / 2 ^ j / 2 = p := by rw [Nat.div_div_eq_div_mul, ← Nat.pow_succ]; exact hj
    rcases (show q / 2 ^ j = 2 * p ∨ q / 2 ^ j = 2 * p + 1 by omega) with h | h
    · exact Or.inl ⟨j, h⟩
    · exact Or.inr ⟨j, h⟩

theorem div_pow_le_half {a k : Nat} (hk : 1 ≤ k) : a / 2 ^ k ≤ a / 2 := by
  obtain ⟨k, rfl⟩ := Nat.exists_eq_add_of_le hk
  rw [Nat.add_comm, Nat.pow_add, ← Nat.div_div_eq_div_mul, Nat.pow_one]
  exact Nat.div_le_div_right (Nat.div_le_self _ _)

/-- The subtrees of the two children of `p ≥ 1` are disjoint. -/
theorem not_below_both {q p : Nat} (hp : 1 ≤ p) (hl : Below q (2 * p)) (hr : Below q (2 * p + 1)) : False := by
  obtain ⟨i, hi⟩ := hl
  obtain ⟨j, hj⟩ := hr
  rcases Nat.lt_trichotomy i j with hij | rfl | hij
  · -- halving `2p` further gives at most `p`
    have : q / 2 ^ j = q / 2 ^ i / 2 ^ (j - i) := by
      rw [Nat.div_div_eq_div_mul, ← Nat.pow_add, Nat.add_sub_cancel' (Nat.le_of_lt hij)]
    have := div_pow_le_half (a := q / 2 ^ i) (k := j - i) (by omega)
    omega
  · omega
  · have : q / 2 ^ i = q / 2 ^ j / 2 ^ (i - j) := by
      rw [Nat.div_div_eq_div_mul, ← Nat.pow_add, Nat.add_sub_cancel' (Nat.le_of_lt hij)]
    have := div_pow_le_half (a := q / 2 ^ j) (k := i - j) (by omega)
    omega

/-- The strict ancestors of `m ≥ 1` are the ancestors of its parent. -/
theorem below_half_iff {m p : Nat} (hm : 1 ≤ m) : Below (m / 2) p ↔ Below m p ∧ p ≠ m := by
  constructor
  · intro h
    exact ⟨(below_half m).trans h, fun hpm => by have := h.le; omega⟩
  · rintro ⟨⟨j, hj⟩, hne⟩
    cases j with
    | zero => simp at hj; exact absurd hj.symm hne
    | succ j => exact ⟨j, by rw [Nat.div_div_eq_div_mul, ← Nat.pow_succ']; exact hj⟩

end HeapPos
