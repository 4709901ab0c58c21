import Mathlib

/-! # Iterators driven by `Next` and `Seek`

An iterator in the style of Prometheus' `chunkenc.Iterator` is driven by a sequence of calls,
each `Next` or `Seek t`, and each call tells whether the iterator stands on an element. `run`
reads the element after each call until the first call that says there is none; after that
call an iterator is exhausted and what it holds is no longer read.

`run_eq_of_simulation` is the forward simulation rule: a relation between the states of two
iterators that every call keeps, with the same answer and the same element read, gives the
same reads under every sequence of calls. `ListIter` is the iterator over a list whose
elements ascend by a key, bounded above by `hi` for `Next`: `Seek t` stays on the element it
stands on when that is at `t` or later, and otherwise moves to the first element at `t` or
later; it stops only for a target past `hi`. Nothing here is specific to one program. -/

namespace SeekIter

/-- One call to an iterator. -/
inductive Op (β : Type) where
  | next
  | seek (t : β)
  deriving DecidableEq, Repr

variable {σ τ α β γ : Type}

/-- The elements read after each call, up to the first call that finds none. -/
def run (step : σ → Op β → σ × Bool) (out : σ → γ) : σ → List (Op β) → List γ
  | _, [] => []
  | s, op :: ops =>
    if (step s op).2 then out (step s op).1 :: run step out (step s op).1 ops else []

@[simp] theorem run_nil (step : σ → Op β → σ × Bool) (out : σ → γ) (s : σ) :
    run step out s [] = [] := rfl

theorem run_cons (step : σ → Op β → σ × Bool) (out : σ → γ) (s : σ) (op : Op β)
    (ops : List (Op β)) :
    run step out s (op :: ops) =
      if (step s op).2 then out (step s op).1 :: run step out (step s op).1 ops else [] := rfl

/-- Forward simulation: a relation kept by every call, with the same answers and reads. -/
theorem run_eq_of_simulation (R : σ → τ → Prop) {step₁ : σ → Op β → σ × Bool}
    {step₂ : τ → Op β → τ × Bool} {out₁ : σ → γ} {out₂ : τ → γ}
    (hstep : ∀ s a op, R s a → (step₁ s op).2 = (step₂ a op).2 ∧
      ((step₂ a op).2 = true → R (step₁ s op).1 (step₂ a op).1 ∧
        out₁ (step₁ s op).1 = out₂ (step₂ a op).1)) :
    ∀ (ops : List (Op β)) (s : σ) (a : τ), R s a → run step₁ out₁ s ops = run step₂ out₂ a ops
  | [], _, _, _ => rfl
  | op :: ops, s, a, h => by
    obtain ⟨hans, hkeep⟩ := hstep s a op h
    rw [run_cons, run_cons, hans]
    by_cases hok : (step₂ a op).2 = true
    · obtain ⟨hR, hout⟩ := hkeep hok
      rw [if_pos hok, if_pos hok, hout, run_eq_of_simulation R hstep ops _ _ hR]
    · rw [if_neg hok, if_neg hok]

/-- An iterator over a list: the element it stands on, and those after it. -/
structure ListIter (α : Type) where
  cur : Option α
  rest : List α
  deriving DecidableEq, Repr

namespace ListIter

variable [LinearOrder β] (key : α → β) (hi : β)

/-- `Next` moves to the next element, and stops there when it is past `hi`. -/
def next (s : ListIter α) : ListIter α × Bool :=
  match s.rest with
  | [] => (s, false)
  | x :: xs => (⟨some x, xs⟩, decide (key x ≤ hi))

/-- `Seek t` stops for a target past `hi`; it stays on an element at `t` or later, and moves to
the first element at `t` or later otherwise. -/
def seek (s : ListIter α) (t : β) : ListIter α × Bool :=
  if hi < t then (s, false)
  else if s.cur.any (fun x => t ≤ key x) then (s, true)
  else
    match s.rest.dropWhile (fun x => key x < t) with
    | [] => (⟨s.cur, []⟩, false)
    | x :: xs => (⟨some x, xs⟩, true)

def step (s : ListIter α) : Op β → ListIter α × Bool
  | .next => s.next key hi
  | .seek t => s.seek key hi t

variable {key hi}

/-- Read with `Next` alone, the iterator yields its elements up to the first past `hi`. -/
theorem run_next (xs : List α) (c : Option α) (n : Nat) :
    run (step key hi) cur ⟨c, xs⟩ (List.replicate n .next) =
      ((xs.takeWhile fun x => key x ≤ hi).take n).map some := by
  induction xs generalizing c n with
  | nil => cases n <;> rfl
  | cons x xs ih =>
    cases n with
    | zero => rfl
    | succ n =>
      rw [List.replicate_succ, run_cons]
      by_cases hx : key x ≤ hi
      · rw [if_pos (by simpa [step, next] using hx), List.takeWhile_cons_of_pos (by simpa using hx)]
        simp only [step, next, List.take_succ_cons, List.map_cons]
        rw [ih]
      · rw [if_neg (by simpa [step, next] using hx), List.takeWhile_cons_of_neg (by simpa using hx)]
        rfl

/-- A first `Seek` to a target up to `hi` stands on the first element at the target or later,
wherever that is. -/
theorem run_seek (xs : List α) {t : β} (ht : t ≤ hi) :
    run (step key hi) cur ⟨none, xs⟩ [.seek t] =
      ((xs.dropWhile fun x => key x < t).take 1).map some := by
  rw [run_cons]
  cases hd : xs.dropWhile (fun x => key x < t) with
  | nil => simp [step, seek, not_lt.mpr ht, hd]
  | cons x xs' => simp [step, seek, not_lt.mpr ht, hd]

end ListIter

end SeekIter
