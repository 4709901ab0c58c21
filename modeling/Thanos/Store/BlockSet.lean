import Mathlib.Data.List.Sort
import Mathlib.Order.Basic

/-! # The blocks of one label set, by resolution

`bucketBlockSet` of `pkg/store` keeps the blocks of an equal label set in one
list per downsampling resolution, coarsest first, each sorted by min time and
then max time. `getFor` fills a time range with blocks of the coarsest
resolution allowed and, recursively, the gaps between them with finer blocks.

A block is the part of its `metadata.Meta` the set reads; `labels` is the label
set `labels.FromMap` builds from the block's Thanos labels. The block matchers
of `getFor` are the predicate `len(blockMatchers) == 0 ||
b.matchRelabelLabels(blockMatchers)`. -/

namespace Thanos.Store

def resLevel0 : Int := 0
def resLevel1 : Int := 5 * 60 * 1000
def resLevel2 : Int := 60 * 60 * 1000

/-- The resolutions of a `bucketBlockSet`, coarsest first, as
`newBucketBlockSet` fixes them. -/
def resolutions : List Int := [resLevel2, resLevel1, resLevel0]

structure Block where
  ulid : Nat
  labels : List (String × String)
  minTime : Int
  maxTime : Int
  resolution : Int
  deriving DecidableEq, Repr

structure BucketBlockSet where
  labels : List (String × String)
  blocks : List (List Block)
  deriving DecidableEq, Repr

def newBucketBlockSet (lset : List (String × String)) : BucketBlockSet :=
  { labels := lset, blocks := [[], [], []] }

def int64index (s : List Int) (x : Int) : Int :=
  ((s.findIdx? (· == x)).map Int.ofNat).getD (-1)

/-- The order `add` sorts the blocks of a resolution in: min time, then max time. -/
def blockLess (x y : Block) : Bool :=
  if x.minTime = y.minTime then x.maxTime < y.maxTime else x.minTime < y.minTime

/-- `x` may stand before `y`: `y` is not less. -/
def blockLe (x y : Block) : Prop := blockLess y x = false

instance : DecidableRel blockLe := fun x y => inferInstanceAs (Decidable (blockLess y x = false))

/-- `bucketBlockSet.add`. Go's `sort.Slice` leaves blocks with equal times in no
particular order; the model keeps them in the order they were added. -/
def BucketBlockSet.add (s : BucketBlockSet) (b : Block) : Except String BucketBlockSet :=
  if s.labels ≠ b.labels then .error "block's label set does not match set"
  else
    let i := int64index resolutions b.resolution
    if i < 0 then
      let r := b.resolution
      .error s!"unsupported downsampling resolution {r}"
    else
      let bs := s.blocks.getD i.toNat [] ++ [b]
      .ok { s with blocks := s.blocks.set i.toNat (bs.insertionSort blockLe) }

/-- The index of the first resolution not above `maxResolutionMillis`. -/
def firstResolution (maxResolutionMillis : Int) : Nat :=
  (resolutions.takeWhile (· > maxResolutionMillis)).length

/-- The loop of `getFor` over the blocks of one resolution: the blocks chosen so
far and `start`, the end of the last block taken. `fill` is the recursive
`getFor` for the next finer resolution, or nothing at the finest. -/
def getForLoop (fill : Int → Int → List Block) (blockMatch : Block → Bool) (mint maxt : Int) :
    Int → List Block → List Block → Int × List Block
  | start, bs, [] => (start, bs)
  | start, bs, b :: rest =>
    if b.maxTime ≤ mint then getForLoop fill blockMatch mint maxt start bs rest
    else if b.minTime > maxt then (start, bs)
    else
      let bs := bs ++ fill start (b.minTime - 1)
      let bs := if blockMatch b then bs ++ [b] else bs
      getForLoop fill blockMatch mint maxt b.maxTime bs rest

/-- The recursive `getFor(start, end, s.resolutions[i+1])` finds the next finer
resolution again, which is why `getForGo` recurses on the finer levels. -/
theorem firstResolution_next {i : Nat} (h : i + 1 < resolutions.length) :
    firstResolution (resolutions.getD (i + 1) 0) = i + 1 := by
  have : i = 0 ∨ i = 1 := by simp [resolutions] at h; omega
  rcases this with rfl | rfl <;> decide

/-- `getFor` once the resolution is found, on the block lists of that resolution
and the finer ones; with no finer one left there is no gap filling. -/
def getForGo (blockMatch : Block → Bool) : List (List Block) → Int → Int → List Block
  | [], _, _ => []
  | bs :: finer, mint, maxt =>
    if mint > maxt then []
    else
      let fill := fun a c => getForGo blockMatch finer a c
      let r := getForLoop fill blockMatch mint maxt mint [] bs
      r.2 ++ fill r.1 maxt

/-- `bucketBlockSet.getFor`; `none` where Go indexes `s.blocks` out of range and
panics, for a negative `maxResolutionMillis`. -/
def BucketBlockSet.getFor (s : BucketBlockSet) (mint maxt maxResolutionMillis : Int)
    (blockMatch : Block → Bool) : Option (List Block) :=
  if mint > maxt then some []
  else if firstResolution maxResolutionMillis < s.blocks.length then
    some (getForGo blockMatch (s.blocks.drop (firstResolution maxResolutionMillis)) mint maxt)
  else none

/-! ## What `add` keeps -/

instance : Std.Total blockLe where
  total x y := by
    unfold blockLe blockLess
    split_ifs <;> simp <;> omega

instance : IsTrans Block blockLe where
  trans x y z := by
    unfold blockLe blockLess
    split_ifs <;> simp <;> omega

/-- A block set as `add` builds it: one list per resolution, holding blocks of
that resolution sorted by min time, then max time. -/
structure WellFormed (s : BucketBlockSet) : Prop where
  length : s.blocks.length = resolutions.length
  resolution : ∀ j, ∀ b ∈ s.blocks.getD j [], b.resolution = resolutions.getD j 0
  sorted : ∀ j, (s.blocks.getD j []).Pairwise blockLe

theorem wellFormed_new (lset : List (String × String)) : WellFormed (newBucketBlockSet lset) where
  length := rfl
  resolution j b hb := by
    rcases j with _ | _ | _ | j <;> simp [newBucketBlockSet] at hb
  sorted j := by
    rcases j with _ | _ | _ | j <;> simp [newBucketBlockSet]

theorem int64index_resolution {r : Int} {i : Int} (h : int64index resolutions r = i) (hi : 0 ≤ i) :
    resolutions.getD i.toNat 0 = r := by
  unfold int64index at h
  rcases hf : resolutions.findIdx? (· == r) with _ | k
  · simp [hf] at h
    omega
  · simp only [hf, Option.map_some, Option.getD_some] at h
    obtain ⟨hk, hpk, -⟩ := List.findIdx?_eq_some_iff_getElem.mp hf
    subst h
    simpa [List.getD_eq_getElem?_getD, hk] using hpk

/-- `add` keeps a set well formed. -/
theorem add_wellFormed {s s' : BucketBlockSet} {b : Block} (hs : WellFormed s)
    (h : s.add b = .ok s') : WellFormed s' := by
  unfold BucketBlockSet.add at h
  dsimp only at h
  split_ifs at h with hl hi
  simp only [Except.ok.injEq] at h
  subst h
  have hres := int64index_resolution rfl (Int.not_lt.mp hi)
  refine ⟨by simp [hs.length], fun j x hx => ?_, fun j => ?_⟩
  · simp only [List.getD_eq_getElem?_getD, List.getElem?_set] at hx
    split_ifs at hx with hj hlt
    · subst hj
      rcases List.mem_append.mp ((List.mem_insertionSort blockLe).mp hx) with hx | hx
      · exact hs.resolution _ x (by simpa [List.getD_eq_getElem?_getD] using hx)
      · simp only [List.mem_singleton] at hx
        subst hx
        exact hres.symm
    · simp at hx
    · exact hs.resolution j x (by simpa [List.getD_eq_getElem?_getD] using hx)
  · simp only [List.getD_eq_getElem?_getD, List.getElem?_set]
    split_ifs with hj hlt
    · exact List.pairwise_insertionSort blockLe _
    · simp
    · simpa [List.getD_eq_getElem?_getD] using hs.sorted j

/-! ## What `getFor` returns -/

/-- The half-open interval `[minTime, maxTime)` of the block holds `t`. -/
def Block.Contains (b : Block) (t : Int) : Prop := b.minTime ≤ t ∧ t < b.maxTime

theorem minTime_le_of_blockLe {x y : Block} (h : blockLe x y) : x.minTime ≤ y.minTime := by
  unfold blockLe blockLess at h
  split_ifs at h <;> simp at h <;> omega

section Loop

variable {fill : Int → Int → List Block} {blockMatch : Block → Bool} {mint maxt : Int}

theorem mem_getForLoop_of_mem {x : Block} :
    ∀ {start : Int} {bs : List Block} (l : List Block), x ∈ bs →
      x ∈ (getForLoop fill blockMatch mint maxt start bs l).2
  | _, _, [], h => h
  | _, _, b :: rest, h => by
    unfold getForLoop
    split_ifs
    · exact mem_getForLoop_of_mem rest h
    · exact h
    · exact mem_getForLoop_of_mem rest (by simp [h])
    · exact mem_getForLoop_of_mem rest (by simp [h])

/-- The loop only ever sets `start` to the end of a block that ends after `mint`. -/
theorem le_getForLoop_start :
    ∀ {start : Int} {bs : List Block} (l : List Block), mint ≤ start →
      mint ≤ (getForLoop fill blockMatch mint maxt start bs l).1
  | _, _, [], h => h
  | _, _, b :: rest, h => by
    unfold getForLoop
    split_ifs with h₁
    · exact le_getForLoop_start rest h
    · exact h
    all_goals exact le_getForLoop_start rest (by omega)

/-- A block the loop returns was there before, is a block of the resolution that
matches and meets `[mint, maxt]`, or came from filling a gap inside it. -/
theorem mem_getForLoop {x : Block} :
    ∀ {start : Int} {bs : List Block} (l : List Block), mint ≤ start →
      x ∈ (getForLoop fill blockMatch mint maxt start bs l).2 →
      x ∈ bs ∨ (x ∈ l ∧ blockMatch x ∧ mint < x.maxTime ∧ x.minTime ≤ maxt) ∨
        ∃ a c, mint ≤ a ∧ c ≤ maxt ∧ x ∈ fill a c
  | _, _, [], _, h => .inl h
  | start, bs, b :: rest, hs, h => by
    unfold getForLoop at h
    dsimp only at h
    split_ifs at h with h₁ h₂ h₃
    · rcases mem_getForLoop rest hs h with h | ⟨hx, hrest⟩ | h
      · exact .inl h
      · exact .inr (.inl ⟨List.mem_cons_of_mem _ hx, hrest⟩)
      · exact .inr (.inr h)
    · exact .inl h
    · -- the block is taken after the gap before it
      rcases mem_getForLoop rest (by omega) h with hx | ⟨hx, hrest⟩ | hx
      · simp only [List.mem_append, List.mem_singleton] at hx
        rcases hx with (hx | hx) | rfl
        · exact .inl hx
        · exact .inr (.inr ⟨start, b.minTime - 1, hs, by omega, hx⟩)
        · exact .inr (.inl ⟨by simp, h₃, by omega, by omega⟩)
      · exact .inr (.inl ⟨List.mem_cons_of_mem _ hx, hrest⟩)
      · exact .inr (.inr hx)
    · -- the block does not match: only the gap before it is filled
      rcases mem_getForLoop rest (by omega) h with hx | ⟨hx, hrest⟩ | hx
      · rcases List.mem_append.mp hx with hx | hx
        · exact .inl hx
        · exact .inr (.inr ⟨start, b.minTime - 1, hs, by omega, hx⟩)
      · exact .inr (.inl ⟨List.mem_cons_of_mem _ hx, hrest⟩)
      · exact .inr (.inr hx)

/-- Without block matchers, the loop returns a block holding `t` from
`[start, maxt]`, or leaves `t` after its `start` to the finer resolutions. -/
theorem getForLoop_cover {t : Int} {Finer : Prop} (ht : mint ≤ t)
    (hfill : ∀ a c, a ≤ t → t ≤ c → Finer → ∃ x ∈ fill a c, x.Contains t) :
    ∀ {start : Int} {bs : List Block} (l : List Block), l.Pairwise blockLe → start ≤ t →
      ((∃ y ∈ l, y.Contains t ∧ y.minTime ≤ maxt) ∨ Finer) →
      (∃ x ∈ (getForLoop fill (fun _ => true) mint maxt start bs l).2, x.Contains t) ∨
        ((getForLoop fill (fun _ => true) mint maxt start bs l).1 ≤ t ∧ Finer)
  | _, _, [], _, hs, hy => by
    simp only [List.not_mem_nil, false_and, exists_false, false_or] at hy
    exact .inr ⟨hs, hy⟩
  | start, bs, b :: rest, hl, hs, hy => by
    have hrest : ∀ y ∈ rest, b.minTime ≤ y.minTime := fun y hy =>
      minTime_le_of_blockLe (List.rel_of_pairwise_cons hl hy)
    unfold getForLoop
    dsimp only
    split_ifs with h₁ h₂ h₃
    · -- `b` ends by `mint`, before `t`
      refine getForLoop_cover ht hfill rest hl.of_cons hs ?_
      rcases hy with ⟨y, hy, hyt⟩ | hf
      · rcases List.mem_cons.mp hy with rfl | hy
        · unfold Block.Contains at hyt
          omega
        · exact .inl ⟨y, hy, hyt⟩
      · exact .inr hf
    · -- `b` and every later block start after `maxt`
      refine .inr ⟨hs, ?_⟩
      rcases hy with ⟨y, hy, hyt⟩ | hf
      · rcases List.mem_cons.mp hy with rfl | hy
        · omega
        · have := hrest y hy
          omega
      · exact hf
    · by_cases hb : b.Contains t
      · exact .inl ⟨b, mem_getForLoop_of_mem rest (by simp), hb⟩
      by_cases hlt : t < b.minTime
      · -- no block from `b` on holds `t`: it lies in the gap filled before `b`
        have hf : Finer := by
          rcases hy with ⟨y, hy, hyt, -⟩ | hf
          · unfold Block.Contains at hyt
            rcases List.mem_cons.mp hy with rfl | hy
            · omega
            · have := hrest y hy
              omega
          · exact hf
        obtain ⟨x, hx, hxt⟩ := hfill start (b.minTime - 1) hs (by omega) hf
        exact .inl ⟨x, mem_getForLoop_of_mem rest (by simp [hx]), hxt⟩
      · -- `t` is at or after the end of `b`, the new `start`
        have hend : b.maxTime ≤ t := by
          unfold Block.Contains at hb
          omega
        refine getForLoop_cover ht hfill rest hl.of_cons hend ?_
        rcases hy with ⟨y, hy, hyt⟩ | hf
        · rcases List.mem_cons.mp hy with rfl | hy
          · exact absurd hyt.1 hb
          · exact .inl ⟨y, hy, hyt⟩
        · exact .inr hf
    · exact absurd rfl h₃

end Loop

/-- Every block `getFor` returns is a block of the resolutions it reads, matches,
and meets `[mint, maxt]`. -/
theorem mem_getForGo {blockMatch : Block → Bool} {x : Block} :
    ∀ (levels : List (List Block)) (mint maxt : Int), x ∈ getForGo blockMatch levels mint maxt →
      ∃ j, x ∈ levels.getD j [] ∧ blockMatch x ∧ mint < x.maxTime ∧ x.minTime ≤ maxt
  | [], _, _, h => by simp [getForGo] at h
  | bs :: finer, mint, maxt, h => by
    unfold getForGo at h
    split_ifs at h with hm
    · simp at h
    dsimp only at h
    have hstart := @le_getForLoop_start (fun a c => getForGo blockMatch finer a c) blockMatch
      mint maxt mint [] bs (le_refl mint)
    rcases List.mem_append.mp h with h | h
    · rcases mem_getForLoop bs (le_refl mint) h with h | ⟨hx, hrest⟩ | ⟨a, c, ha, hc, h⟩
      · simp at h
      · exact ⟨0, by simpa using hx, hrest⟩
      · obtain ⟨j, hj, hb, h₁, h₂⟩ := mem_getForGo finer a c h
        exact ⟨j + 1, by simpa using hj, hb, by omega, by omega⟩
    · obtain ⟨j, hj, hb, h₁, h₂⟩ := mem_getForGo finer _ _ h
      exact ⟨j + 1, by simpa using hj, hb, by omega, h₂⟩

/-- Without block matchers, `getFor` covers every time of `[mint, maxt]` that a
block of the resolutions it reads holds. -/
theorem getForGo_cover {t : Int} :
    ∀ (levels : List (List Block)) (mint maxt : Int), (∀ j, (levels.getD j []).Pairwise blockLe) →
      mint ≤ t → t ≤ maxt → (∃ j, ∃ y ∈ levels.getD j [], y.Contains t) →
      ∃ x ∈ getForGo (fun _ => true) levels mint maxt, x.Contains t
  | [], _, _, _, _, _, ⟨j, y, hy, _⟩ => by simp at hy
  | bs :: finer, mint, maxt, hsort, ht, ht', ⟨j, y, hy, hyt⟩ => by
    unfold getForGo
    rw [if_neg (by omega)]
    dsimp only
    have hfill : ∀ a c, a ≤ t → t ≤ c → (∃ j, ∃ y ∈ finer.getD j [], y.Contains t) →
        ∃ x ∈ getForGo (fun _ => true) finer a c, x.Contains t :=
      fun a c ha hc hf => getForGo_cover finer a c (fun j => by simpa using hsort (j + 1)) ha hc hf
    -- `y` is a block of this resolution or of a finer one
    have hy' : (∃ y ∈ bs, y.Contains t ∧ y.minTime ≤ maxt) ∨
        ∃ j, ∃ y ∈ finer.getD j [], y.Contains t := by
      rcases j with _ | j
      · exact .inl ⟨y, by simpa using hy, hyt, by unfold Block.Contains at hyt; omega⟩
      · exact .inr ⟨j, y, by simpa using hy, hyt⟩
    rcases getForLoop_cover ht hfill bs (by simpa using hsort 0) ht hy' with
      ⟨x, hx, hxt⟩ | ⟨hle, hf⟩
    · exact ⟨x, List.mem_append_left _ hx, hxt⟩
    · obtain ⟨x, hx, hxt⟩ := hfill _ maxt hle ht' hf
      exact ⟨x, List.mem_append_right _ hx, hxt⟩

/-- The levels `getFor` reads are those whose resolution is not above the bound. -/
theorem resolution_le_iff {m : Int} {j : Nat} (hj : j < resolutions.length) :
    resolutions.getD j 0 ≤ m ↔ firstResolution m ≤ j := by
  have : j = 0 ∨ j = 1 ∨ j = 2 := by simp [resolutions] at hj; omega
  unfold firstResolution
  rcases this with rfl | rfl | rfl <;>
    simp only [resolutions, resLevel0, resLevel1, resLevel2, List.takeWhile_cons,
      List.takeWhile_nil] <;>
    split_ifs <;> simp_all <;> omega

theorem getD_drop (l : List (List Block)) (k j : Nat) : (l.drop k).getD j [] = l.getD (k + j) [] := by
  simp [List.getD_eq_getElem?_getD, List.getElem?_drop]

/-- `getFor` returns only matching blocks of a resolution not above
`maxResolutionMillis` that meet `[mint, maxt]`. -/
theorem getFor_sound {s : BucketBlockSet} {mint maxt maxResolutionMillis : Int}
    {blockMatch : Block → Bool} {bs : List Block} {x : Block} (hs : WellFormed s)
    (h : s.getFor mint maxt maxResolutionMillis blockMatch = some bs) (hx : x ∈ bs) :
    blockMatch x ∧ x.resolution ≤ maxResolutionMillis ∧ mint < x.maxTime ∧ x.minTime ≤ maxt := by
  unfold BucketBlockSet.getFor at h
  split_ifs at h with h₁ h₂ <;> simp only [Option.some.injEq] at h <;> subst h
  · simp at hx
  obtain ⟨j, hj, hb, hmin, hmax⟩ := mem_getForGo _ _ _ hx
  rw [getD_drop] at hj
  have hlt : firstResolution maxResolutionMillis + j < resolutions.length := by
    rw [← hs.length]
    by_contra hge
    simp [List.getD_eq_getElem?_getD, List.getElem?_eq_none (Nat.le_of_not_lt hge)] at hj
  refine ⟨hb, ?_, hmin, hmax⟩
  rw [hs.resolution _ x hj]
  exact (resolution_le_iff hlt).mpr (by omega)

/-- Without block matchers, every time of `[mint, maxt]` that a block of a
resolution not above `maxResolutionMillis` holds is held by a block `getFor`
returns. -/
theorem getFor_cover {s : BucketBlockSet} {mint maxt maxResolutionMillis t : Int}
    {bs : List Block} (hs : WellFormed s)
    (h : s.getFor mint maxt maxResolutionMillis (fun _ => true) = some bs)
    (ht : mint ≤ t) (ht' : t ≤ maxt)
    (hy : ∃ j, ∃ y ∈ s.blocks.getD j [], y.resolution ≤ maxResolutionMillis ∧ y.Contains t) :
    ∃ x ∈ bs, x.Contains t := by
  obtain ⟨j, y, hy, hres, hyt⟩ := hy
  have hlt : j < resolutions.length := by
    rw [← hs.length]
    by_contra hge
    simp [List.getD_eq_getElem?_getD, List.getElem?_eq_none (Nat.le_of_not_lt hge)] at hy
  have hle := (resolution_le_iff hlt).mp (hs.resolution j y hy ▸ hres)
  unfold BucketBlockSet.getFor at h
  rw [if_neg (by omega), if_pos (by rw [hs.length]; omega), Option.some.injEq] at h
  subst h
  refine getForGo_cover _ _ _ (fun i => by rw [getD_drop]; exact hs.sorted _) ht ht'
    ⟨j - firstResolution maxResolutionMillis, y, ?_, hyt⟩
  rw [getD_drop, Nat.add_sub_cancel' hle]
  exact hy

/-- A raw block over `[0, 300)` and two 5m blocks inside it with a gap between:
`getFor` fills the gaps before, between and after the 5m blocks each with the
raw block, and returns it three times. -/
theorem getFor_repeats_finer_block :
    ((newBucketBlockSet []).add ⟨1, [], 0, 300, resLevel0⟩ >>= (·.add ⟨2, [], 100, 150, resLevel1⟩) >>=
        (·.add ⟨3, [], 200, 250, resLevel1⟩)).toOption.bind
        (fun s => s.getFor 0 299 resLevel1 fun _ => true) =
      some [⟨1, [], 0, 300, resLevel0⟩, ⟨2, [], 100, 150, resLevel1⟩, ⟨1, [], 0, 300, resLevel0⟩,
        ⟨3, [], 200, 250, resLevel1⟩, ⟨1, [], 0, 300, resLevel0⟩] := by
  decide +kernel

end Thanos.Store
