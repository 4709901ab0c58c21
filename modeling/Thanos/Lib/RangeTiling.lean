import Mathlib.Data.List.Basic

/-! # Consecutive index ranges that tile an interval

`Tiles lo rs hi`: the half-open ranges `rs` of indices, none of them empty, follow one
another from `lo` to `hi`. Cutting a list at such ranges and joining the pieces gives its
slice `[lo, hi)` back (`Tiles.flatMap_slice`), so every index of `[lo, hi)` is served by
exactly one range, in order. Nothing here is specific to one program. -/

namespace RangeTiling

variable {α : Type*}

/-- The ranges `rs` tile `[lo, hi)`: each starts where the one before ends, none is empty,
and the last ends at `hi`. -/
def Tiles : Nat → List (Nat × Nat) → Nat → Prop
  | lo, [], hi => lo = hi
  | lo, r :: rs, hi => r.1 = lo ∧ r.1 < r.2 ∧ Tiles r.2 rs hi

/-- `l[r.1:r.2]`. -/
def slice (l : List α) (r : Nat × Nat) : List α := (l.drop r.1).take (r.2 - r.1)

theorem slice_map {β : Type*} (f : α → β) (l : List α) (r : Nat × Nat) :
    slice (l.map f) r = (slice l r).map f := by
  simp only [slice, List.map_drop, List.map_take]

theorem slice_sublist (l : List α) (r : Nat × Nat) : (slice l r).Sublist l :=
  (List.take_sublist _ _).trans (List.drop_sublist _ _)

/-- An element of a slice is the list's element at an index of the range. -/
theorem exists_getElem?_of_mem_slice {l : List α} {r : Nat × Nat} {x : α} (hx : x ∈ slice l r) :
    ∃ m, r.1 ≤ m ∧ m < r.2 ∧ l[m]? = some x := by
  obtain ⟨i, hi⟩ := List.mem_iff_getElem?.mp hx
  rw [slice, List.getElem?_take, List.getElem?_drop] at hi
  -- an index past the range reads nothing
  split_ifs at hi with hlt
  exact ⟨r.1 + i, Nat.le_add_right _ _, by omega, hi⟩

theorem mem_slice_of_getElem? {l : List α} {r : Nat × Nat} {m : Nat} {x : α} (h1 : r.1 ≤ m)
    (h2 : m < r.2) (hx : l[m]? = some x) : x ∈ slice l r := by
  rw [List.mem_iff_getElem?]
  refine ⟨m - r.1, ?_⟩
  rw [slice, List.getElem?_take, if_pos (by omega), List.getElem?_drop,
    show r.1 + (m - r.1) = m by omega, hx]

@[simp] theorem tiles_nil {lo hi : Nat} : Tiles lo [] hi ↔ lo = hi := Iff.rfl

@[simp] theorem tiles_cons {lo hi : Nat} {r : Nat × Nat} {rs : List (Nat × Nat)} :
    Tiles lo (r :: rs) hi ↔ r.1 = lo ∧ r.1 < r.2 ∧ Tiles r.2 rs hi := Iff.rfl

theorem Tiles.le : ∀ {lo hi : Nat} {rs : List (Nat × Nat)}, Tiles lo rs hi → lo ≤ hi
  | _, _, [], h => Nat.le_of_eq h
  | _, _, _ :: _, ⟨hstart, hlt, hrest⟩ => by
    have := hrest.le
    omega

/-- Each range lies in `[lo, hi)`. -/
theorem Tiles.bounds : ∀ {lo hi : Nat} {rs : List (Nat × Nat)}, Tiles lo rs hi →
    ∀ r ∈ rs, lo ≤ r.1 ∧ r.1 < r.2 ∧ r.2 ≤ hi
  | _, _, [], _, _, hr => absurd hr List.not_mem_nil
  | _, _, r :: _, ⟨hstart, hlt, hrest⟩, q, hq => by
    rcases List.mem_cons.mp hq with rfl | hq
    · exact ⟨Nat.le_of_eq hstart.symm, hlt, hrest.le⟩
    · obtain ⟨h1, h2, h3⟩ := hrest.bounds q hq
      exact ⟨by omega, h2, h3⟩

/-- There are at most as many ranges as indices. -/
theorem Tiles.length_le : ∀ {lo hi : Nat} {rs : List (Nat × Nat)}, Tiles lo rs hi →
    rs.length ≤ hi - lo
  | _, _, [], _ => Nat.zero_le _
  | _, _, _ :: _, ⟨hstart, hlt, hrest⟩ => by
    have h := hrest.length_le
    have hle := hrest.le
    simp only [List.length_cons]
    omega

/-- The pieces of a list cut at a tiling of `[lo, hi)`, joined, are its slice `[lo, hi)`. -/
theorem Tiles.flatMap_slice (l : List α) : ∀ {lo hi : Nat} {rs : List (Nat × Nat)},
    Tiles lo rs hi → rs.flatMap (slice l) = slice l (lo, hi)
  | lo, _, [], h => by
    obtain rfl : lo = _ := h
    simp [slice]
  | lo, hi, r :: rs, ⟨hstart, hlt, hrest⟩ => by
    have hle := hrest.le
    rw [List.flatMap_cons, hrest.flatMap_slice l]
    simp only [slice]
    -- the first piece and the rest are the two parts of one `take`
    rw [show hi - lo = (r.2 - r.1) + (hi - r.2) by omega, List.take_add, List.drop_drop,
      hstart, show lo + (r.2 - lo) = r.2 by omega]

end RangeTiling
