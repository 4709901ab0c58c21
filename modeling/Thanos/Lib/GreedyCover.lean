import Mathlib.Data.List.Perm.Basic
import Mathlib.Data.List.Pairwise
import Mathlib.Data.List.Induction

/-! # Keeping the elements no earlier kept element dominates

`keepUndominated dom l kept dropped` walks `l` and keeps an element unless an element it
has kept dominates it, in which case it drops it. A dropped element is dominated by a kept
one (`exists_kept_of_mem_dropped`), so when domination is transitive the walk keeps an
element exactly when no element before it dominates it, kept or not
(`mem_kept_iff`). For a list ordered by a strict order `lt`, "before" is `lt`.
Nothing here is specific to one program. -/

namespace GreedyCover

variable {α : Type*} (dom : α → α → Bool)

def keepUndominated : List α → List α → List α → List α × List α
  | [], kept, dropped => (kept, dropped)
  | x :: xs, kept, dropped =>
    if kept.any (dom · x) then keepUndominated xs kept (dropped ++ [x])
    else keepUndominated xs (kept ++ [x]) dropped

/-- The elements the walk from the start keeps. -/
def kept (l : List α) : List α := (keepUndominated dom l [] []).1

/-- The elements the walk from the start drops. -/
def dropped (l : List α) : List α := (keepUndominated dom l [] []).2

theorem keepUndominated_append (l₁ l₂ kept dropped : List α) :
    keepUndominated dom (l₁ ++ l₂) kept dropped =
      keepUndominated dom l₂ (keepUndominated dom l₁ kept dropped).1
        (keepUndominated dom l₁ kept dropped).2 := by
  induction l₁ generalizing kept dropped with
  | nil => rfl
  | cons x xs ih =>
    simp only [List.cons_append, keepUndominated]
    split <;> exact ih _ _

@[simp] theorem kept_nil : kept dom ([] : List α) = [] := rfl

@[simp] theorem dropped_nil : dropped dom ([] : List α) = [] := rfl

theorem kept_append_singleton (l : List α) (x : α) :
    kept dom (l ++ [x]) = if (kept dom l).any (dom · x) then kept dom l else kept dom l ++ [x] := by
  rw [kept, keepUndominated_append]
  simp only [keepUndominated]
  exact apply_ite Prod.fst _ _ _

theorem dropped_append_singleton (l : List α) (x : α) :
    dropped dom (l ++ [x]) =
      if (kept dom l).any (dom · x) then dropped dom l ++ [x] else dropped dom l := by
  rw [dropped, keepUndominated_append]
  simp only [keepUndominated]
  exact apply_ite Prod.snd _ _ _

/-- The walk splits its list: every element is kept or dropped, once. -/
theorem perm_kept_append_dropped (l : List α) : (kept dom l ++ dropped dom l).Perm l := by
  induction l using List.reverseRecOn with
  | nil => simp
  | append_singleton l x ih =>
    rw [kept_append_singleton, dropped_append_singleton]
    split
    · rw [← List.append_assoc]
      exact ih.append_right [x]
    · rw [List.append_assoc, List.singleton_append]
      exact List.perm_middle.trans ((List.perm_cons x).mpr ih) |>.trans
        (List.perm_append_singleton x l).symm

theorem exists_kept_of_mem_dropped {l : List α} {y : α} (hy : y ∈ dropped dom l) :
    ∃ w ∈ kept dom l, dom w y = true := by
  induction l using List.reverseRecOn with
  | nil => simp at hy
  | append_singleton l x ih =>
    rw [dropped_append_singleton] at hy
    rw [kept_append_singleton]
    split at hy
    · rename_i hdom
      rcases List.mem_append.mp hy with hy | hy
      · simpa [hdom] using ih hy
      · obtain rfl := List.mem_singleton.mp hy
        obtain ⟨w, hw, hwy⟩ := List.any_eq_true.mp hdom
        exact ⟨w, by simp [hdom, hw], hwy⟩
    · rename_i hdom
      obtain ⟨w, hw, hwy⟩ := ih hy
      exact ⟨w, by simp [hdom, hw], hwy⟩

theorem kept_sublist (l : List α) {x : α} (hx : x ∈ kept dom l) : x ∈ l :=
  (perm_kept_append_dropped dom l).subset (List.mem_append_left _ hx)

section Transitive

variable {dom} {lt : α → α → Prop}

/-- With a transitive domination, over a list ordered by an asymmetric `lt`, the walk keeps
exactly the elements that no element before them dominates. -/
theorem mem_kept_iff (htrans : ∀ a b c, dom a b = true → dom b c = true → dom a c = true)
    (hasymm : ∀ a b, lt a b → ¬lt b a) {l : List α} (hl : l.Pairwise lt) (x : α) :
    x ∈ kept dom l ↔ x ∈ l ∧ ∀ y ∈ l, lt y x → dom y x = false := by
  induction l using List.reverseRecOn with
  | nil => simp
  | append_singleton l z ih =>
    rw [List.pairwise_append] at hl
    obtain ⟨hl, -, hbefore⟩ := hl
    have hbefore' : ∀ y ∈ l, lt y z := fun y hy => hbefore y hy z (List.mem_singleton_self z)
    have hz : z ∉ l := fun hzl => hasymm z z (hbefore' z hzl) (hbefore' z hzl)
    rw [kept_append_singleton]
    by_cases hxz : x = z
    · -- the new element: kept unless an earlier element, kept or dropped, dominates it
      subst hxz
      have hnot : x ∉ kept dom l := fun h => hz (kept_sublist dom l h)
      have hdom : (kept dom l).any (dom · x) = true ↔ ∃ y ∈ l, dom y x = true := by
        constructor
        · intro h
          obtain ⟨y, hy, hyx⟩ := List.any_eq_true.mp h
          exact ⟨y, kept_sublist dom l hy, hyx⟩
        · rintro ⟨y, hy, hyx⟩
          rcases List.mem_append.mp ((perm_kept_append_dropped dom l).symm.subset hy) with hk | hd
          · exact List.any_eq_true.mpr ⟨y, hk, hyx⟩
          · obtain ⟨w, hw, hwy⟩ := exists_kept_of_mem_dropped dom hd
            exact List.any_eq_true.mpr ⟨w, hw, htrans w y x hwy hyx⟩
      split
      · rename_i h
        obtain ⟨y, hy, hyx⟩ := hdom.mp h
        simp only [hnot, false_iff, not_and, not_forall]
        exact fun _ => ⟨y, List.mem_append_left _ hy, hbefore' y hy, by simp [hyx]⟩
      · rename_i h
        have hall : ∀ y ∈ l, dom y x = false := by
          intro y hy
          by_contra hyx
          exact h (hdom.mpr ⟨y, hy, by simpa using hyx⟩)
        simp only [List.mem_append, List.mem_singleton, or_true, true_and, true_iff]
        intro y hy hyx
        rcases hy with hy | rfl
        · exact hall y hy
        · exact absurd hyx (fun h => hasymm y y h h)
    · -- an earlier element: the new one comes after it and changes nothing
      have hkeep : x ∈ (if (kept dom l).any (dom · z) then kept dom l else kept dom l ++ [z]) ↔
          x ∈ kept dom l := by
        split <;> simp [hxz]
      rw [hkeep, ih hl]
      simp only [List.mem_append, List.mem_singleton, hxz, or_false]
      constructor
      · rintro ⟨hx, hall⟩
        refine ⟨hx, fun y hy hyx => ?_⟩
        rcases hy with hy | rfl
        · exact hall y hy hyx
        · exact absurd (hbefore' x hx) (hasymm y x hyx)
      · rintro ⟨hx, hall⟩
        exact ⟨hx, fun y hy hyx => hall y (.inl hy) hyx⟩

end Transitive

end GreedyCover
