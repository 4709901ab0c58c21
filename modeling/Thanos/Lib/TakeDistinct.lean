import Mathlib.Data.List.Nodup
import Mathlib.Data.List.Infix

/-! # The first `n` distinct elements of a list

`takeDistinct n acc l` walks `l` and appends to `acc` each element it does not hold
yet, until it holds `n`. This is the walk of a consistent-hashing ring: the replicas
of a key are the first `n` distinct owners met from the key's position on. The
lemma that carries the ring's consistency is `filter_takeDistinct_prefix`: the
chosen elements that satisfy `p`, taken from `l`, are a prefix of those taken from
`l.filter p`. Nothing here is specific to one program. -/

namespace TakeDistinct

variable {α β : Type*} [DecidableEq α] [DecidableEq β]

def takeDistinct (n : Nat) : List α → List α → List α
  | acc, [] => acc
  | acc, x :: l =>
    if acc.length < n then
      if x ∈ acc then takeDistinct n acc l else takeDistinct n (acc ++ [x]) l
    else acc

variable {n : Nat}

@[simp] theorem takeDistinct_nil (acc : List α) : takeDistinct n acc [] = acc := rfl

theorem takeDistinct_of_le {acc : List α} (h : n ≤ acc.length) (l : List α) :
    takeDistinct n acc l = acc := by
  cases l with
  | nil => rfl
  | cons x l => simp [takeDistinct, Nat.not_lt.mpr h]

theorem takeDistinct_cons_of_lt {acc : List α} (h : acc.length < n) (x : α) (l : List α) :
    takeDistinct n acc (x :: l) =
      if x ∈ acc then takeDistinct n acc l else takeDistinct n (acc ++ [x]) l := by
  simp [takeDistinct, h]

theorem prefix_takeDistinct : ∀ (acc l : List α), acc <+: takeDistinct n acc l
  | acc, [] => List.prefix_refl acc
  | acc, x :: l => by
    by_cases h : acc.length < n
    · rw [takeDistinct_cons_of_lt h]
      split_ifs
      · exact prefix_takeDistinct acc l
      · exact (List.prefix_append acc [x]).trans (prefix_takeDistinct _ l)
    · rw [takeDistinct_of_le (Nat.not_lt.mp h)]

theorem mem_takeDistinct : ∀ {acc l : List α} {x : α}, x ∈ takeDistinct n acc l → x ∈ acc ∨ x ∈ l
  | acc, [], x, h => Or.inl h
  | acc, y :: l, x, h => by
    by_cases hlt : acc.length < n
    · rw [takeDistinct_cons_of_lt hlt] at h
      split_ifs at h
      · rcases mem_takeDistinct h with h | h
        · exact Or.inl h
        · exact Or.inr (List.mem_cons_of_mem _ h)
      · rcases mem_takeDistinct h with h | h
        · rcases List.mem_append.mp h with h | h
          · exact Or.inl h
          · exact Or.inr (List.mem_singleton.mp h ▸ List.mem_cons_self)
        · exact Or.inr (List.mem_cons_of_mem _ h)
    · rw [takeDistinct_of_le (Nat.not_lt.mp hlt)] at h
      exact Or.inl h

theorem nodup_takeDistinct : ∀ {acc : List α} (l : List α), acc.Nodup → (takeDistinct n acc l).Nodup
  | acc, [], h => h
  | acc, x :: l, h => by
    by_cases hlt : acc.length < n
    · rw [takeDistinct_cons_of_lt hlt]
      split_ifs with hx
      · exact nodup_takeDistinct l h
      · exact nodup_takeDistinct l (List.nodup_append.mpr
          ⟨h, List.nodup_singleton x, fun a ha b hb hab => hx (List.mem_singleton.mp hb ▸ hab ▸ ha)⟩)
    · rwa [takeDistinct_of_le (Nat.not_lt.mp hlt)]

theorem length_takeDistinct_le : ∀ {acc : List α} (l : List α), acc.length ≤ n →
    (takeDistinct n acc l).length ≤ n
  | acc, [], h => h
  | acc, x :: l, h => by
    by_cases hlt : acc.length < n
    · rw [takeDistinct_cons_of_lt hlt]
      split_ifs
      · exact length_takeDistinct_le l h
      · exact length_takeDistinct_le l (by simp; omega)
    · rwa [takeDistinct_of_le (Nat.not_lt.mp hlt)]

/-- A walk that ends short of `n` has taken every element it met. -/
theorem mem_takeDistinct_of_lt : ∀ {acc l : List α} {x : α}, (takeDistinct n acc l).length < n →
    x ∈ acc ∨ x ∈ l → x ∈ takeDistinct n acc l
  | acc, [], x, _, hx => by simpa using hx
  | acc, y :: l, x, hshort, hx => by
    by_cases hlt : acc.length < n
    · rw [takeDistinct_cons_of_lt hlt] at hshort ⊢
      split_ifs at hshort ⊢ with hy
      · refine mem_takeDistinct_of_lt hshort ?_
        rcases hx with hx | hx
        · exact Or.inl hx
        · rcases List.mem_cons.mp hx with rfl | hx
          · exact Or.inl hy
          · exact Or.inr hx
      · refine mem_takeDistinct_of_lt hshort ?_
        rcases hx with hx | hx
        · exact Or.inl (List.mem_append_left _ hx)
        · rcases List.mem_cons.mp hx with rfl | hx
          · exact Or.inl (List.mem_append_right _ (List.mem_singleton_self x))
          · exact Or.inr hx
    · rw [takeDistinct_of_le (Nat.not_lt.mp hlt)] at hshort
      omega

/-- The walk fills up when `n` distinct elements can be met. -/
theorem length_takeDistinct_eq {acc l : List α} (hacc : acc.length ≤ n) {D : List α}
    (hD : D.Nodup) (hlen : n ≤ D.length) (hsub : ∀ x ∈ D, x ∈ acc ∨ x ∈ l) :
    (takeDistinct n acc l).length = n := by
  refine Nat.le_antisymm (length_takeDistinct_le l hacc) (Nat.not_lt.mp fun hshort => ?_)
  have := hD.length_le_of_subset fun x hx => mem_takeDistinct_of_lt hshort (hsub x hx)
  omega

/-- An injective relabelling commutes with the walk. -/
theorem map_takeDistinct (f : α → β) : ∀ (acc l : List α),
    (∀ x ∈ acc ++ l, ∀ y ∈ acc ++ l, f x = f y → x = y) →
    (takeDistinct n acc l).map f = takeDistinct n (acc.map f) (l.map f)
  | acc, [], _ => rfl
  | acc, x :: l, hinj => by
    by_cases hlt : acc.length < n
    · have hlt' : (acc.map f).length < n := by simpa using hlt
      rw [takeDistinct_cons_of_lt hlt, List.map_cons, takeDistinct_cons_of_lt hlt']
      have hmem : f x ∈ acc.map f ↔ x ∈ acc := by
        refine ⟨fun h => ?_, List.mem_map_of_mem⟩
        obtain ⟨y, hy, hxy⟩ := List.mem_map.mp h
        exact hinj y (by simp [hy]) x (by simp) hxy ▸ hy
      by_cases hx : x ∈ acc
      · rw [if_pos hx, if_pos (hmem.mpr hx)]
        have hsub : ∀ a ∈ acc ++ l, a ∈ acc ++ x :: l := fun a ha => by
          rcases List.mem_append.mp ha with ha | ha <;> simp [ha]
        exact map_takeDistinct f acc l fun a ha b hb => hinj a (hsub a ha) b (hsub b hb)
      · rw [if_neg hx, if_neg (mt hmem.mp hx)]
        have hsub : ∀ a ∈ acc ++ [x] ++ l, a ∈ acc ++ x :: l := fun a ha => by
          simp only [List.mem_append, List.mem_singleton] at ha
          rcases ha with (ha | rfl) | ha
          · simp [ha]
          · simp
          · simp [ha]
        have := map_takeDistinct f (acc ++ [x]) l fun a ha b hb => hinj a (hsub a ha) b (hsub b hb)
        rwa [List.map_append, List.map_singleton] at this
    · rw [takeDistinct_of_le (Nat.not_lt.mp hlt), takeDistinct_of_le (by simpa using Nat.not_lt.mp hlt)]

/-- The walk over `l`, restricted to `p`, is a prefix of the walk over `l.filter p`:
until the first walk is full the two agree on `p`, and after that the second only
grows. -/
theorem filter_takeDistinct_prefix (p : α → Bool) : ∀ {acc' acc l : List α},
    (acc'.length < n → acc = acc'.filter p) → acc'.filter p <+: acc →
    (takeDistinct n acc' l).filter p <+: takeDistinct n acc (l.filter p)
  | acc', acc, [], _, hpre => hpre
  | acc', acc, x :: l, hagree, hpre => by
    by_cases hlt : acc'.length < n
    · have hacc := hagree hlt
      have hlt₂ : acc.length < n := Nat.lt_of_le_of_lt (hacc ▸ List.length_filter_le _ _) hlt
      rw [takeDistinct_cons_of_lt hlt]
      by_cases hp : p x = true
      · rw [List.filter_cons_of_pos hp, takeDistinct_cons_of_lt hlt₂]
        -- `x` is in `acc'` exactly when it is in `acc`, its part on `p`
        have hmem : x ∈ acc' ↔ x ∈ acc := by rw [hacc, List.mem_filter]; simp [hp]
        by_cases hx : x ∈ acc'
        · rw [if_pos hx, if_pos (hmem.mp hx)]
          exact filter_takeDistinct_prefix p hagree hpre
        · rw [if_neg hx, if_neg (mt hmem.mpr hx)]
          have heq : (acc' ++ [x]).filter p = acc ++ [x] := by simp [List.filter_append, hp, hacc]
          exact filter_takeDistinct_prefix p (fun _ => heq.symm) (heq ▸ List.prefix_refl _)
      · rw [List.filter_cons_of_neg hp]
        have heq : (acc' ++ [x]).filter p = acc := by simp [List.filter_append, hp, hacc]
        split_ifs
        · exact filter_takeDistinct_prefix p hagree hpre
        · exact filter_takeDistinct_prefix p (fun _ => heq.symm) (heq ▸ List.prefix_refl _)
    · rw [takeDistinct_of_le (Nat.not_lt.mp hlt)]
      exact hpre.trans (prefix_takeDistinct acc _)

theorem filter_takeDistinct_nil_prefix (p : α → Bool) (l : List α) :
    (takeDistinct n [] l).filter p <+: takeDistinct n [] (l.filter p) :=
  filter_takeDistinct_prefix p (fun _ => rfl) (List.prefix_refl _)

end TakeDistinct
