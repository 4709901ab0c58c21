import Mathlib

/-! # Keeping what comes later

`keepAfter key last l` reads `l` in order and keeps each element whose key exceeds the key of
the last one kept, or `last` before the first: what an iterator over overlapping sorted runs
yields when it skips everything not later than what it yielded already. The kept elements
ascend strictly (`pairwise_keepAfter`); dropping the leading kept ones up to `b` is keeping
after `b` (`dropWhile_keepAfter`), which is how a `Seek` past the last yielded key resumes the
reading. Nothing here is specific to one program. -/

namespace Ascending

variable {α β : Type} [LinearOrder β] (key : α → β)

/-- The elements of `l` later than every element kept before them, and than `last`. -/
def keepAfter : Option β → List α → List α
  | _, [] => []
  | none, x :: xs => x :: keepAfter (some (key x)) xs
  | some b, x :: xs =>
    if b < key x then x :: keepAfter (some (key x)) xs else keepAfter (some b) xs

variable {key}

@[simp] theorem keepAfter_nil (last : Option β) : keepAfter key last [] = [] := by
  cases last <;> rfl

@[simp] theorem keepAfter_none_cons (x : α) (xs : List α) :
    keepAfter key none (x :: xs) = x :: keepAfter key (some (key x)) xs := rfl

theorem keepAfter_cons_of_lt {b : β} {x : α} (h : b < key x) (xs : List α) :
    keepAfter key (some b) (x :: xs) = x :: keepAfter key (some (key x)) xs := by
  simp [keepAfter, h]

theorem keepAfter_cons_of_le {b : β} {x : α} (h : key x ≤ b) (xs : List α) :
    keepAfter key (some b) (x :: xs) = keepAfter key (some b) xs := by
  simp [keepAfter, not_lt.mpr h]

/-- Before the first element, any threshold below it keeps the same. -/
theorem keepAfter_none_eq {a : β} {l : List α} (h : ∀ x ∈ l.head?, a < key x) :
    keepAfter key none l = keepAfter key (some a) l := by
  cases l with
  | nil => rfl
  | cons x xs => rw [keepAfter_none_cons, keepAfter_cons_of_lt (h x rfl)]

theorem lt_of_mem_keepAfter {a : β} : ∀ {l : List α} {x : α},
    x ∈ keepAfter key (some a) l → a < key x
  | [], _, h => by simp at h
  | y :: ys, x, h => by
    by_cases hy : a < key y
    · rw [keepAfter_cons_of_lt hy] at h
      rcases List.mem_cons.mp h with rfl | h
      · exact hy
      · exact hy.trans (lt_of_mem_keepAfter h)
    · rw [keepAfter_cons_of_le (not_lt.mp hy)] at h
      exact lt_of_mem_keepAfter h

/-- The kept elements ascend strictly. -/
theorem pairwise_keepAfter : ∀ (last : Option β) (l : List α),
    (keepAfter key last l).Pairwise fun x y => key x < key y
  | _, [] => by simp
  | none, x :: xs => by
    rw [keepAfter_none_cons, List.pairwise_cons]
    exact ⟨fun y hy => lt_of_mem_keepAfter hy, pairwise_keepAfter _ xs⟩
  | some b, x :: xs => by
    by_cases hx : b < key x
    · rw [keepAfter_cons_of_lt hx, List.pairwise_cons]
      exact ⟨fun y hy => lt_of_mem_keepAfter hy, pairwise_keepAfter _ xs⟩
    · rw [keepAfter_cons_of_le (not_lt.mp hx)]
      exact pairwise_keepAfter _ xs

/-- Dropping the kept elements up to `b` is keeping after `b`. -/
theorem dropWhile_keepAfter {a b : β} (hab : a ≤ b) : ∀ l : List α,
    (keepAfter key (some a) l).dropWhile (fun x => key x ≤ b) = keepAfter key (some b) l
  | [] => by simp
  | x :: xs => by
    by_cases hx : a < key x
    · rw [keepAfter_cons_of_lt hx]
      by_cases hxb : key x ≤ b
      · rw [List.dropWhile_cons_of_pos (by simpa using hxb), dropWhile_keepAfter hxb xs,
          keepAfter_cons_of_le hxb]
      · rw [List.dropWhile_cons_of_neg (by simpa using hxb),
          keepAfter_cons_of_lt (not_le.mp hxb)]
    · have hxa := not_lt.mp hx
      rw [keepAfter_cons_of_le hxa, dropWhile_keepAfter hab xs,
        keepAfter_cons_of_le (hxa.trans hab)]

/-- On a strictly ascending list, keeping from `c` on is dropping what comes before `c`. -/
theorem filter_eq_dropWhile {c : β} : ∀ {l : List α}, l.Pairwise (fun x y => key x < key y) →
    l.filter (fun x => c ≤ key x) = l.dropWhile (fun x => key x < c)
  | [], _ => rfl
  | x :: xs, h => by
    rw [List.pairwise_cons] at h
    by_cases hx : c ≤ key x
    · rw [List.filter_cons_of_pos (by simpa using hx),
        List.dropWhile_cons_of_neg (by simpa using hx), List.filter_eq_self.mpr]
      intro y hy
      simpa using hx.trans (h.1 y hy).le
    · rw [List.filter_cons_of_neg (by simpa using hx),
        List.dropWhile_cons_of_pos (by simpa using not_le.mp hx), filter_eq_dropWhile h.2]

/-- On a strictly ascending list, seeking `t` among the elements from `a` on is seeking the
later of `a` and `t`. -/
theorem dropWhile_filter_le {a t : β} {l : List α} (h : l.Pairwise fun x y => key x < key y) :
    (l.filter fun x => a ≤ key x).dropWhile (fun x => key x < t) =
      l.dropWhile fun x => key x < max a t := by
  have hfil : (l.filter fun x => a ≤ key x).Pairwise fun x y => key x < key y := h.filter _
  rw [← filter_eq_dropWhile hfil, ← filter_eq_dropWhile h, List.filter_filter]
  congr 1
  funext x
  simp only [max_le_iff, Bool.decide_and, Bool.and_comm]

end Ascending
