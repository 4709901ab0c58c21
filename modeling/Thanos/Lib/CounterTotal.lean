import Mathlib.Algebra.Order.Group.Defs
import Mathlib.Tactic.Abel
import Mathlib.Data.List.Pairwise

/-! # Reset-corrected counter totals

A monotonic counter that restarts from zero is read as the running sum of its
increases: the difference to the previous value, or the whole value when it
dropped (a reset). The state after a sequence of values is the last value and
the running total; these lemmas say how the state composes over appended
sequences and when the total only grows. Nothing here is specific to one
program: values live in any linearly ordered additive group. -/

namespace CounterTotal

variable {α : Type*} [AddCommGroup α] [LinearOrder α]

/-- The increase a counter shows from `a` to `b`: `b - a`, or all of `b` after a reset. -/
def delta (a b : α) : α := if a ≤ b then b - a else b

/-- The state after one more value `v`: the last value and the running total. The first
value starts the total at itself. -/
def push : Option (α × α) → α → α × α
  | none, v => (v, v)
  | some s, v => (v, s.2 + delta s.1 v)

/-- The state after the values `vs`, from state `s`. -/
def run (s : Option (α × α)) : List α → Option (α × α)
  | [] => s
  | v :: vs => run (some (push s v)) vs

/-- The reset-corrected total of a sequence of values, `none` for no values. -/
def total (vs : List α) : Option α := (run none vs).map Prod.snd

@[simp] theorem run_nil (s : Option (α × α)) : run s [] = s := rfl

@[simp] theorem run_cons (s : Option (α × α)) (v : α) (vs : List α) :
    run s (v :: vs) = run (some (push s v)) vs := rfl

theorem run_append (s : Option (α × α)) (xs ys : List α) :
    run s (xs ++ ys) = run (run s xs) ys := by
  induction xs generalizing s with
  | nil => rfl
  | cons x xs ih => exact ih _

theorem delta_of_le {a b : α} (h : a ≤ b) : delta a b = b - a := if_pos h

@[simp] theorem push_none (v : α) : push none v = (v, v) := rfl

@[simp] theorem push_fst (s : Option (α × α)) (v : α) : (push s v).1 = v := by
  cases s <;> rfl

/-- Adding `c` to the total of the starting state adds `c` to every total after it. -/
theorem run_shift (l t c : α) (vs : List α) :
    run (some (l, t + c)) vs = (run (some (l, t)) vs).map fun s => (s.1, s.2 + c) := by
  induction vs generalizing l t with
  | nil => rfl
  | cons v vs ih =>
    simp only [run_cons, push]
    rw [show t + c + delta l v = t + delta l v + c by abel]
    exact ih v _

/-- What came before a sequence only shifts its totals, by how much the first value
raised the total there over the value itself. -/
theorem run_cons_shift (s : Option (α × α)) (v : α) (vs : List α) :
    run s (v :: vs) = (run none (v :: vs)).map fun x => (x.1, x.2 + ((push s v).2 - v)) := by
  obtain ⟨t, ht⟩ : ∃ t, push s v = (v, t) := ⟨(push s v).2, by ext <;> simp⟩
  have h := run_shift v v (t - v) vs
  rw [add_sub_cancel] at h
  simp only [run_cons, ht, push_none, h]

/-- From a started state, the state is never `none` again. -/
theorem run_some (s : α × α) (vs : List α) : ∃ s', run (some s) vs = some s' := by
  induction vs generalizing s with
  | nil => exact ⟨s, rfl⟩
  | cons v vs ih => exact ih _

/-- The last value of the state is the last value read. -/
theorem run_fst (s : Option (α × α)) (vs : List α) (v : α) (h : vs.getLast? = some v) :
    (run s vs).map Prod.fst = some v := by
  induction vs generalizing s with
  | nil => simp at h
  | cons x xs ih =>
    cases xs with
    | nil => simp_all
    | cons y ys => exact ih _ (by simpa using h)

/-- Over non-decreasing values no reset happens: the total grows by the last
value minus the first. -/
theorem run_of_sorted {l t : α} {vs : List α} (h : (l :: vs).Pairwise (· ≤ ·)) :
    run (some (l, t)) vs = some ((l :: vs).getLast (by simp), t + ((l :: vs).getLast (by simp) - l)) := by
  induction vs generalizing l t with
  | nil => simp
  | cons v vs ih =>
    have hlv : l ≤ v := List.rel_of_pairwise_cons h (by simp)
    simp only [run_cons, push, delta_of_le hlv]
    rw [ih (List.Pairwise.of_cons h)]
    simp only [List.getLast_cons_cons, Option.some.injEq, Prod.mk.injEq, true_and]
    abel

/-- A non-decreasing sequence read from the start has no reset: its total is its
last value. -/
theorem run_none_of_sorted {vs : List α} (hne : vs ≠ []) (h : vs.Pairwise (· ≤ ·)) :
    run none vs = some (vs.getLast hne, vs.getLast hne) := by
  obtain ⟨v, vs, rfl⟩ := List.exists_cons_of_ne_nil hne
  rw [run_cons, push_none, run_of_sorted h, add_sub_cancel]

section Ordered

variable [IsOrderedAddMonoid α]

theorem delta_nonneg {a b : α} (hb : 0 ≤ b) : 0 ≤ delta a b := by
  unfold delta
  split
  · rename_i h; exact sub_nonneg.mpr h
  · exact hb

/-- Over non-negative values the total only grows. -/
theorem le_run_total {l t : α} {vs : List α} (h : ∀ v ∈ vs, 0 ≤ v) {s : α × α}
    (hs : run (some (l, t)) vs = some s) : t ≤ s.2 := by
  induction vs generalizing l t with
  | nil => simp at hs; subst hs; exact le_rfl
  | cons v vs ih =>
    have hv : 0 ≤ v := h v (by simp)
    have := ih (fun w hw => h w (by simp [hw])) hs
    calc t ≤ t + delta l v := le_add_of_nonneg_right (delta_nonneg hv)
      _ ≤ s.2 := this

end Ordered

end CounterTotal
