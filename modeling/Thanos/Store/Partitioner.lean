import Mathlib
import Thanos.Lib.RangeTiling

/-! # The gap-based partitioner of `pkg/store`

`gapBasedPartitioner.Partition(length, rng)` groups the byte ranges `rng(0), …,
rng(length - 1)` into parts read from the bucket at once: a part grows over the next
ranges as long as the next one starts at most `maxGapSize` bytes after the part's end, and
its end is the largest end it has seen. `ElemRng` says which elements a part serves.

The parts' `ElemRng`s tile `[0, length)` in order, each part starts where its first range
starts and ends at or after every range it serves, at one of their ends
(`partition_spec`); a range that starts a new part starts beyond the gap
(`PartOf.gap`). The loops keep Go's bounds: the inner loop runs at most
`length - k` times and the outer one at most `length` times, so the fuel never runs
out. `p.End+g.maxGapSize` is a `uint64` sum. -/

namespace Thanos.Store

open RangeTiling

/-- `Part`: the bytes `[Start, End)` read at once and the elements `ElemRng` they serve. -/
structure Part where
  start : Nat
  stop : Nat
  elemRng : Nat × Nat
  deriving DecidableEq, Repr

structure GapBasedPartitioner where
  maxGapSize : Nat
  deriving DecidableEq, Repr

/-- The inner loop of `Partition` from element `k` on: the part's end `stop` grows over the
ranges until `length` or a gap above `maxGapSize`; the end reached and the element the
loop stops at. -/
def grow (maxGapSize length : Nat) (rng : Nat → Nat × Nat) : Nat → Nat → Nat → Nat × Nat
  | 0, stop, k => (stop, k)
  | fuel + 1, stop, k =>
    if k < length then
      if (stop + maxGapSize) % 2 ^ 64 < (rng k).1 then (stop, k)
      else grow maxGapSize length rng fuel (if stop ≤ (rng k).2 then (rng k).2 else stop) (k + 1)
    else (stop, k)

/-- The outer loop of `Partition` from element `k` on, for at most `fuel` parts. -/
def partitionLoop (maxGapSize length : Nat) (rng : Nat → Nat × Nat) : Nat → Nat → List Part
  | 0, _ => []
  | fuel + 1, k =>
    if k < length then
      let (stop, k') := grow maxGapSize length rng (length - (k + 1)) (rng k).2 (k + 1)
      ⟨(rng k).1, stop, (k, k')⟩ :: partitionLoop maxGapSize length rng fuel k'
    else []

/-- `gapBasedPartitioner.Partition`. -/
def GapBasedPartitioner.partition (g : GapBasedPartitioner) (length : Nat)
    (rng : Nat → Nat × Nat) : List Part :=
  partitionLoop g.maxGapSize length rng length 0

section Grow

variable {maxGapSize length : Nat} {rng : Nat → Nat × Nat}

/-- What the inner loop reaches from `stop` at `k`: an element `k'` at or after `k`, an end
at or after `stop` and every end it passed, which is `stop` or one of those ends, and, with
enough fuel, `length` or a range that starts beyond the gap. -/
structure Grown (maxGapSize length : Nat) (rng : Nat → Nat × Nat) (fuel stop k stop' k' : Nat) :
    Prop where
  le : k ≤ k'
  le_length : k ≤ length → k' ≤ length
  stop_le : stop ≤ stop'
  covers : ∀ m, k ≤ m → m < k' → (rng m).2 ≤ stop'
  eq_end : stop' = stop ∨ ∃ m, k ≤ m ∧ m < k' ∧ stop' = (rng m).2
  gap : length - k ≤ fuel → k' < length → (stop' + maxGapSize) % 2 ^ 64 < (rng k').1

theorem grow_spec : ∀ fuel stop k,
    Grown maxGapSize length rng fuel stop k (grow maxGapSize length rng fuel stop k).1
      (grow maxGapSize length rng fuel stop k).2
  | 0, stop, k => by
    simp only [grow]
    exact ⟨Nat.le_refl _, id, Nat.le_refl _, fun _ h1 h2 => absurd h2 (by omega), .inl rfl,
      fun hfuel hk => absurd hk (by omega)⟩
  | fuel + 1, stop, k => by
    simp only [grow]
    by_cases hk : k < length
    · rw [if_pos hk]
      by_cases hbreak : (stop + maxGapSize) % 2 ^ 64 < (rng k).1
      · rw [if_pos hbreak]
        exact ⟨Nat.le_refl _, id, Nat.le_refl _, fun _ h1 h2 => absurd h2 (by omega), .inl rfl,
          fun _ _ => hbreak⟩
      · rw [if_neg hbreak]
        -- the range at `k` joins the part: its end is the new running end if larger
        set stop₁ := if stop ≤ (rng k).2 then (rng k).2 else stop with hstop₁
        have hle₁ : stop ≤ stop₁ := by rw [hstop₁]; split_ifs <;> omega
        have hk₁ : (rng k).2 ≤ stop₁ := by rw [hstop₁]; split_ifs <;> omega
        obtain ⟨hle, hlen, hstop, hcov, heq, hgap⟩ := grow_spec fuel stop₁ (k + 1)
        refine ⟨by omega, fun _ => hlen (by omega), Nat.le_trans hle₁ hstop, ?_, ?_,
          fun hfuel => hgap (by omega)⟩
        · intro m hm1 hm2
          rcases Nat.eq_or_lt_of_le hm1 with rfl | hm1
          · exact Nat.le_trans hk₁ hstop
          · exact hcov m hm1 hm2
        · rcases heq with heq | ⟨m, hm1, hm2, heq⟩
          · by_cases hs : stop ≤ (rng k).2
            · exact .inr ⟨k, Nat.le_refl _, by omega, by rw [heq, hstop₁, if_pos hs]⟩
            · exact .inl (by rw [heq, hstop₁, if_neg hs])
          · exact .inr ⟨m, by omega, hm2, heq⟩
    · rw [if_neg hk]
      exact ⟨Nat.le_refl _, id, Nat.le_refl _, fun _ h1 h2 => absurd h2 (by omega), .inl rfl,
        fun _ hk' => absurd hk' hk⟩

end Grow

/-- A part of `Partition` over `rng`: its bytes start at its first range, reach every range
it serves and end at one of their ends; a part that stops before `length` stops at a range
beyond the gap. -/
structure PartOf (maxGapSize length : Nat) (rng : Nat → Nat × Nat) (p : Part) : Prop where
  start : p.start = (rng p.elemRng.1).1
  covers : ∀ m, p.elemRng.1 ≤ m → m < p.elemRng.2 → (rng m).2 ≤ p.stop
  eq_end : ∃ m, p.elemRng.1 ≤ m ∧ m < p.elemRng.2 ∧ p.stop = (rng m).2
  gap : p.elemRng.2 < length → (p.stop + maxGapSize) % 2 ^ 64 < (rng p.elemRng.2).1

section Loop

variable {maxGapSize length : Nat} {rng : Nat → Nat × Nat}

/-- One turn of the outer loop makes a part from element `k` on. -/
theorem partOf_grow (k : Nat) :
    PartOf maxGapSize length rng ⟨(rng k).1,
      (grow maxGapSize length rng (length - (k + 1)) (rng k).2 (k + 1)).1,
      (k, (grow maxGapSize length rng (length - (k + 1)) (rng k).2 (k + 1)).2)⟩ := by
  obtain ⟨hle, -, hstop, hcov, heq, hgap⟩ :=
    @grow_spec maxGapSize length rng (length - (k + 1))
      (rng k).2 (k + 1)
  refine ⟨rfl, ?_, ?_, hgap (Nat.le_refl _)⟩ <;> dsimp only
  · intro m hm1 hm2
    rcases Nat.eq_or_lt_of_le hm1 with rfl | hm1
    · exact hstop
    · exact hcov m hm1 hm2
  · rcases heq with heq | ⟨m, hm1, hm2, heq⟩
    · exact ⟨k, Nat.le_refl _, by omega, heq⟩
    · exact ⟨m, by omega, hm2, heq⟩

/-- The outer loop from `k` with enough fuel: parts whose elements tile `[k, length)`. -/
theorem partitionLoop_spec : ∀ fuel k, k ≤ length → length ≤ fuel + k →
    Tiles k ((partitionLoop maxGapSize length rng fuel k).map Part.elemRng) length ∧
      ∀ p ∈ partitionLoop maxGapSize length rng fuel k, PartOf maxGapSize length rng p
  | 0, k, hk, hfuel => by
    simp only [partitionLoop, List.map_nil, tiles_nil, List.not_mem_nil, false_imp_iff,
      imp_true_iff, and_true]
    omega
  | fuel + 1, k, hk, hfuel => by
    simp only [partitionLoop]
    by_cases hlt : k < length
    · rw [if_pos hlt]
      obtain ⟨hle, hlen, -, -, -, -⟩ :=
        @grow_spec maxGapSize length rng (length - (k + 1))
          (rng k).2 (k + 1)
      obtain ⟨htiles, hparts⟩ := partitionLoop_spec fuel
        (grow maxGapSize length rng (length - (k + 1)) (rng k).2 (k + 1)).2 (hlen (by omega))
        (by omega)
      refine ⟨⟨rfl, by dsimp only; omega, htiles⟩, ?_⟩
      intro p hp
      rcases List.mem_cons.mp hp with rfl | hp
      · exact partOf_grow k
      · exact hparts p hp
    · rw [if_neg hlt]
      simp only [List.map_nil, tiles_nil, List.not_mem_nil, false_imp_iff, imp_true_iff,
        and_true]
      omega

/-- `Partition`'s parts serve the elements `[0, length)` in order, each part as `PartOf`
says. -/
theorem partition_spec (g : GapBasedPartitioner) (length : Nat) (rng : Nat → Nat × Nat) :
    Tiles 0 ((g.partition length rng).map Part.elemRng) length ∧
      ∀ p ∈ g.partition length rng, PartOf g.maxGapSize length rng p :=
  partitionLoop_spec length 0 (Nat.zero_le _) (by omega)

-- the overlapping ranges of `TestGapBasedPartitioner_Partition`
example : (GapBasedPartitioner.mk (1024 * 512)).partition 5
    (fun i => ([(1, 30), (1, 4), (3, 28), (1024 * 512 + 31, 1024 * 512 + 32),
      (1024 * 512 + 31, 1024 * 512 + 40)].getD i (0, 0))) =
    [⟨1, 30, (0, 3)⟩, ⟨1024 * 512 + 31, 1024 * 512 + 40, (3, 5)⟩] := by
  decide

end Loop

end Thanos.Store
