import Mathlib.Order.Basic
import Mathlib.Data.List.Sort
import Mathlib.Data.List.Rotate

/-! # Go's `sort.Search`

`sort.Search n f` is a binary search for the first index in `[0, n)` at which
the predicate `f` holds, assuming `f` is false and then true. Each round of its
loop shrinks the half-open interval `[i, j)`, so `n` rounds finish it.

`sort.Sort` is modelled by the stable `List.insertionSort`; what its callers use of
it is that it commutes with `filter` (`filter_insertionSort`), and that rotating a
list to the first index where a monotone predicate holds puts the elements that
satisfy it first (`rotate_findIdx`). -/

namespace Go.Sort

/-- The loop of `sort.Search` on `[i, j)`, for at most `fuel` rounds. -/
def searchLoop (f : Nat → Bool) : Nat → Nat → Nat → Nat
  | 0, i, _ => i
  | fuel + 1, i, j =>
    if i < j then
      let h := (i + j) / 2
      if !f h then searchLoop f fuel (h + 1) j else searchLoop f fuel i h
    else i

def search (n : Nat) (f : Nat → Bool) : Nat := searchLoop f n 0 n

section Spec

variable {f : Nat → Bool} {n : Nat}

/-- What each round of the loop keeps: `f` fails below `i` and holds at `j`,
unless `j` is `n`. -/
structure Bracket (f : Nat → Bool) (n i j : Nat) : Prop where
  le : i ≤ j
  le_n : j ≤ n
  below : ∀ k < i, f k = false
  at_j : j < n → f j = true

theorem bracket_start : Bracket f n 0 n :=
  ⟨Nat.zero_le n, Nat.le_refl n, fun _ h => absurd h (Nat.not_lt_zero _), fun h => absurd h (Nat.lt_irrefl n)⟩

theorem Bracket.step_true {i j : Nat} (hb : Bracket f n i j) (hij : i < j)
    (hf : f ((i + j) / 2) = true) : Bracket f n i ((i + j) / 2) :=
  ⟨by omega, by have := hb.le_n; omega, hb.below, fun _ => hf⟩

section
variable (hmono : ∀ a b, a ≤ b → b < n → f a = true → f b = true)
include hmono

theorem Bracket.step_false {i j : Nat} (hb : Bracket f n i j) (hij : i < j)
    (hf : f ((i + j) / 2) = false) : Bracket f n ((i + j) / 2 + 1) j := by
  refine ⟨by omega, hb.le_n, fun k hk => ?_, hb.at_j⟩
  by_cases hki : k < i
  · exact hb.below k hki
  · cases hfk : f k with
    | false => rfl
    | true =>
      have := hmono k ((i + j) / 2) (by omega) (by have := hb.le_n; omega) hfk
      rw [hf] at this
      cases this

/-- With fuel for the width of the interval, the loop ends on the first index
at which `f` holds. -/
theorem searchLoop_bracket : ∀ (fuel i j : Nat), j - i ≤ fuel → Bracket f n i j →
    Bracket f n (searchLoop f fuel i j) (searchLoop f fuel i j)
  | 0, i, j, hw, hb => by
    have hij : i = j := by have := hb.le; omega
    subst hij
    exact hb
  | fuel + 1, i, j, hw, hb => by
    unfold searchLoop
    by_cases hij : i < j
    · simp only [hij, if_true]
      cases hf : f ((i + j) / 2) with
      | false =>
        exact searchLoop_bracket fuel _ j (by omega) (hb.step_false hmono hij hf)
      | true =>
        exact searchLoop_bracket fuel i _ (by omega) (hb.step_true hij hf)
    · have hji : i = j := by have := hb.le; omega
      subst hji
      simpa [hij] using hb

theorem search_spec : search n f ≤ n ∧ (∀ k < search n f, f k = false) ∧
    (search n f < n → f (search n f) = true) := by
  have hb := searchLoop_bracket hmono n 0 n (by omega) bracket_start
  exact ⟨hb.le_n, hb.below, hb.at_j⟩

end

/-- Searching the indices of a list for a predicate that is false and then true
finds the first index at which it holds; `f` reads the predicate off the list's
elements; the search never reads past the end. -/
theorem search_eq_findIdx {α : Type} (xs : List α) (p : α → Bool)
    (hmono : xs.Pairwise fun a b => p a = true → p b = true) (f : Nat → Bool)
    (hf : ∀ k (hk : k < xs.length), f k = p xs[k]) :
    search xs.length f = xs.findIdx p := by
  obtain ⟨hle, hbelow, hat⟩ := search_spec (n := xs.length) (f := f) (by
      intro a b hab hb ha
      rw [hf b hb]
      rw [hf a (by omega)] at ha
      rcases Nat.lt_or_eq_of_le hab with hab | rfl
      · exact List.pairwise_iff_getElem.mp hmono a b (by omega) hb hab ha
      · exact ha)
  rcases Nat.lt_or_eq_of_le hle with hlt | heq
  · symm
    rw [List.findIdx_eq hlt]
    refine ⟨by rw [← hf _ hlt]; exact hat hlt, fun j hj => ?_⟩
    rw [← hf j (by omega)]
    exact hbelow j hj
  · rw [heq]
    symm
    rw [List.findIdx_eq_length]
    intro x hx
    obtain ⟨k, hk, rfl⟩ := List.getElem_of_mem hx
    rw [← hf k hk]
    exact hbelow k (by omega)

end Spec

section Sorted

variable {α : Type*}

/-- Under a predicate that is false and then true, a list is its `false` part and
then its `true` part, and the first `true` index is where the second part starts. -/
theorem filter_split_of_mono (p : α → Bool) :
    ∀ {l : List α}, l.Pairwise (fun a b => p a = true → p b = true) →
      l = l.filter (fun a => !p a) ++ l.filter p ∧ l.findIdx p = (l.filter fun a => !p a).length
  | [], _ => ⟨rfl, rfl⟩
  | a :: l, hmono => by
    obtain ⟨hafter, hmono⟩ := List.pairwise_cons.mp hmono
    by_cases hp : p a = true
    · have hall : ∀ b ∈ l, p b = true := fun b hb => hafter b hb hp
      have hT : l.filter p = l := List.filter_eq_self.mpr hall
      have hF : (l.filter fun a => !p a) = [] := List.filter_eq_nil_iff.mpr fun b hb => by simp [hall b hb]
      simp [hp, hT, hF, List.findIdx_cons]
    · obtain ⟨hsplit, hfind⟩ := filter_split_of_mono p hmono
      simp only [List.filter_cons, hp, Bool.not_false, if_true, Bool.false_eq_true, if_false,
        List.cons_append, List.findIdx_cons, cond_false, List.length_cons]
      exact ⟨congrArg (a :: ·) hsplit, by rw [hfind]⟩

/-- Rotating to the first index where a monotone predicate holds puts the elements
that satisfy it first, each part in its order. -/
theorem rotate_findIdx (p : α → Bool) {l : List α}
    (hmono : l.Pairwise (fun a b => p a = true → p b = true)) :
    l.rotate (l.findIdx p) = l.filter p ++ l.filter (fun a => !p a) := by
  obtain ⟨hsplit, hfind⟩ := filter_split_of_mono p hmono
  have h := List.rotate_append_length_eq (l.filter fun a => !p a) (l.filter p)
  rw [← hsplit] at h
  rw [hfind, h]

variable {r : α → α → Prop} [DecidableRel r]

theorem filter_orderedInsert [IsTrans α r] (p : α → Bool) (a : α) :
    ∀ {L : List α}, L.Pairwise r →
      (L.orderedInsert r a).filter p = if p a then (L.filter p).orderedInsert r a else L.filter p
  | [], _ => by by_cases hp : p a = true <;> simp [hp]
  | b :: L, hL => by
    obtain ⟨hb, hL⟩ := List.pairwise_cons.mp hL
    by_cases hab : r a b
    · -- `a` goes first, before every element of the filtered list too
      have hfirst : ∀ c ∈ (b :: L).filter p, r a c := fun c hc => by
        rcases List.mem_cons.mp (List.mem_of_mem_filter hc) with rfl | hc
        · exact hab
        · exact IsTrans.trans _ _ _ hab (hb c hc)
      rw [List.orderedInsert_cons_of_le _ _ hab]
      by_cases hp : p a = true
      · rw [List.filter_cons_of_pos hp, if_pos hp]
        cases hF : (b :: L).filter p with
        | nil => rfl
        | cons c F => rw [List.orderedInsert_cons_of_le _ _ (hfirst c (hF ▸ List.mem_cons_self))]
      · rw [List.filter_cons_of_neg hp, if_neg hp]
    · rw [List.orderedInsert_of_not_le _ _ hab, List.filter_cons, filter_orderedInsert p a hL, List.filter_cons]
      by_cases hpb : p b = true <;> by_cases hpa : p a = true <;>
        simp [hpb, hpa, List.orderedInsert_of_not_le _ _ hab]

/-- A stable sort commutes with `filter`. -/
theorem filter_insertionSort [Std.Total r] [IsTrans α r] (p : α → Bool) :
    ∀ l : List α, (l.insertionSort r).filter p = (l.filter p).insertionSort r
  | [] => rfl
  | a :: l => by
    rw [List.insertionSort_cons, filter_orderedInsert p a (List.pairwise_insertionSort r l),
      filter_insertionSort p l, List.filter_cons]
    by_cases hp : p a = true
    · rw [if_pos hp, if_pos hp, List.insertionSort_cons]
    · rw [if_neg hp, if_neg hp]

end Sorted

end Go.Sort
