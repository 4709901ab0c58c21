import Mathlib.Algebra.Order.Ring.Rat
import Mathlib.Data.List.TakeWhile
import Thanos.Go.Binary

/-! # Deduplicating the replicas of one series

The iterators of `pkg/dedup`. `dedupSeriesIterator` merges two replicas of a
series: it always reads the replica with the earlier next sample, and puts a
penalty on the other one, so that a replica scraped a little later does not add
samples in between. `dedupSeries.Iterator` nests one such iterator for every
further replica.

A replica's iterator, once its first `Next` was called, is the list of its
samples from the current one on; `Seek` never moves back, as the chunk iterator
contract says. Timestamps are int64: the sums `lastT + 1 + pen` and
`2 * (t - lastT)` wrap as Go's do (`wrapInt64`). Values are exact rationals,
and histogram samples are not modelled. -/

namespace Thanos.Dedup

open GoBinary (wrapInt64 IsInt64 wrapInt64_of_isInt64)

/-- `math.MinInt64`, the `lastT` of an iterator that has not emitted a sample. -/
def minInt64 : Int := -9223372036854775808

/-- The penalty put on the replica not picked while no delta is known yet. -/
def initialPenalty : Int := 5000

/-- `chunkenc.ValueType`, for float replicas. -/
inductive ValueType where
  | valNone
  | valFloat
  deriving DecidableEq, Repr

/-- A replica's iterator after its first `Next`, as an `adjustableSeriesIterator`:
the samples from the current one on, and the `errAdjust` that
`counterErrAdjustSeriesIterator` adds to every value read (it stays `0` for a
`noopAdjustableSeriesIterator`, which never adjusts). -/
structure ReplicaIterator where
  samples : List (Int × ℚ)
  errAdjust : ℚ
  deriving DecidableEq, Repr

namespace ReplicaIterator

/-- What `Next` and `Seek` return once the iterator stands on `samples`. -/
def valueType (it : ReplicaIterator) : ValueType :=
  match it.samples with
  | [] => .valNone
  | _ :: _ => .valFloat

def seek (it : ReplicaIterator) (t : Int) : ReplicaIterator × ValueType :=
  let it' := { it with samples := it.samples.dropWhile fun p => p.1 < t }
  (it', it'.valueType)

def atT (it : ReplicaIterator) : Int :=
  match it.samples with
  | [] => 0
  | p :: _ => p.1

def at' (it : ReplicaIterator) : Int × ℚ :=
  match it.samples with
  | [] => (0, it.errAdjust)
  | p :: _ => (p.1, p.2 + it.errAdjust)

/-- `counterErrAdjustSeriesIterator.adjustAtValue`: a replica whose current value
is below the last value read (it missed the counter's increase before a
restart) is lifted to it; the no-op iterator ignores the call. -/
def adjustAtValue (isCounter : Bool) (it : ReplicaIterator) (lastFloatValue : ℚ) :
    ReplicaIterator :=
  if isCounter ∧ lastFloatValue > it.at'.2 then
    { it with errAdjust := it.errAdjust + (lastFloatValue - it.at'.2) }
  else it

@[simp] theorem seek_samples (it : ReplicaIterator) (t : Int) :
    (it.seek t).1.samples = it.samples.dropWhile fun p => p.1 < t := rfl

@[simp] theorem seek_errAdjust (it : ReplicaIterator) (t : Int) :
    (it.seek t).1.errAdjust = it.errAdjust := rfl

@[simp] theorem seek_snd (it : ReplicaIterator) (t : Int) :
    (it.seek t).2 = (it.seek t).1.valueType := rfl

@[simp] theorem valueType_eq_valNone {it : ReplicaIterator} :
    it.valueType = .valNone ↔ it.samples = [] := by
  unfold valueType
  split <;> simp_all

@[simp] theorem valueType_eq_valFloat {it : ReplicaIterator} :
    it.valueType = .valFloat ↔ it.samples ≠ [] := by
  unfold valueType
  split <;> simp_all

theorem atT_eq {it : ReplicaIterator} {p : Int × ℚ} {ps : List (Int × ℚ)}
    (h : it.samples = p :: ps) : it.atT = p.1 := by
  simp [atT, h]

theorem at'_eq {it : ReplicaIterator} {p : Int × ℚ} {ps : List (Int × ℚ)}
    (h : it.samples = p :: ps) : it.at' = (p.1, p.2 + it.errAdjust) := by
  simp [at', h]

@[simp] theorem adjustAtValue_samples (c : Bool) (it : ReplicaIterator) (v : ℚ) :
    (it.adjustAtValue c v).samples = it.samples := by
  unfold adjustAtValue
  split <;> rfl

@[simp] theorem adjustAtValue_false (it : ReplicaIterator) (v : ℚ) :
    it.adjustAtValue false v = it := by
  simp [adjustAtValue]

theorem exists_cons_of_head?_map_fst {xs : List (Int × ℚ)} {t : Int}
    (h : xs.head?.map Prod.fst = some t) : ∃ p ps, xs = p :: ps ∧ p.1 = t := by
  cases xs with
  | nil => simp at h
  | cons p ps => exact ⟨p, ps, rfl, by simpa using h⟩

/-- A seek to a time not after the current sample leaves the iterator where it is. -/
theorem seek_of_le {it : ReplicaIterator} {p : Int × ℚ} {ps : List (Int × ℚ)} {t : Int}
    (h : it.samples = p :: ps) (ht : t ≤ p.1) : it.seek t = (it, .valFloat) := by
  obtain ⟨samples, e⟩ := it
  dsimp only at h
  subst h
  simp [seek, valueType, Int.not_lt.mpr ht]

/-- A seek past the current sample is a seek from the next one. -/
theorem seek_of_lt {it : ReplicaIterator} {p : Int × ℚ} {ps : List (Int × ℚ)} {t : Int}
    (h : it.samples = p :: ps) (ht : p.1 < t) :
    it.seek t = ({ it with samples := ps } : ReplicaIterator).seek t := by
  simp [seek, h, ht]

/-- After a seek to `t` the iterator stands at `t` or later. -/
theorem le_of_head?_dropWhile {xs : List (Int × ℚ)} {t : Int} {p : Int × ℚ}
    (h : (xs.dropWhile fun q => q.1 < t).head? = some p) : t ≤ p.1 := by
  have hp := List.head?_dropWhile_not (fun q : Int × ℚ => decide (q.1 < t)) xs
  rw [h] at hp
  simpa using hp

/-- Seeking to a time not after the current sample does not move. -/
theorem dropWhile_of_le_head {p : Int × ℚ} {ps : List (Int × ℚ)} {t : Int} (h : t ≤ p.1) :
    ((p :: ps).dropWhile fun q => q.1 < t) = p :: ps := by
  simp [Int.not_lt.mpr h]

/-- Seeking past the current sample drops it. -/
theorem length_dropWhile_lt {p : Int × ℚ} {ps : List (Int × ℚ)} {t : Int} (h : p.1 < t) :
    ((p :: ps).dropWhile fun q => q.1 < t).length < (p :: ps).length := by
  simp only [List.dropWhile_cons, h, decide_true, List.length_cons]
  exact Nat.lt_succ_of_le (List.dropWhile_suffix _).length_le

/-- A seek that exhausts a suffix of a time-sorted list went past all of the list. -/
theorem lt_of_dropWhile_eq_nil {xs ys : List (Int × ℚ)} {t : Int}
    (hsort : (xs.map Prod.fst).Pairwise (· < ·)) (hsuf : ys <:+ xs) (hys : ys ≠ [])
    (hnil : (ys.dropWhile fun q => q.1 < t) = []) : ∀ p ∈ xs, p.1 < t := by
  obtain ⟨pre, rfl⟩ := hsuf
  obtain ⟨q, qs, rfl⟩ := List.exists_cons_of_ne_nil hys
  have hq : q.1 < t := by simpa using List.dropWhile_eq_nil_iff.mp hnil q (by simp)
  intro p hp
  rcases List.mem_append.mp hp with hp | hp
  · have hpq : p.1 < q.1 := by
      rw [List.map_append, List.pairwise_append] at hsort
      exact hsort.2.2 _ (List.mem_map_of_mem hp) _ (by simp)
    exact lt_trans hpq hq
  · simpa using List.dropWhile_eq_nil_iff.mp hnil p hp

end ReplicaIterator

/-- `dedupSeriesIterator`; `lastIterA` says whether `lastIter` is `a`. -/
structure DedupSeriesIterator where
  a : ReplicaIterator
  b : ReplicaIterator
  aval : ValueType
  bval : ValueType
  lastT : Int
  lastIterA : Bool
  penA : Int
  penB : Int
  useA : Bool
  deriving DecidableEq, Repr

/-- `newDedupSeriesIterator` over the iterators of two replicas; their first
`Next` leaves each on its first sample. -/
def newDedupSeriesIterator (a b : List (Int × ℚ)) : DedupSeriesIterator :=
  let a : ReplicaIterator := ⟨a, 0⟩
  let b : ReplicaIterator := ⟨b, 0⟩
  { a, b, aval := a.valueType, bval := b.valueType, lastT := minInt64, lastIterA := true,
    penA := 0, penB := 0, useA := true }

namespace DedupSeriesIterator

def lastIter (it : DedupSeriesIterator) : ReplicaIterator :=
  if it.lastIterA then it.a else it.b

def lastFloatVal (it : DedupSeriesIterator) : ℚ × Bool :=
  if it.useA ∧ it.aval = .valFloat then (it.lastIter.at'.2, true)
  else if ¬it.useA ∧ it.bval = .valFloat then (it.lastIter.at'.2, true)
  else (0, false)

def adjustAtValue (isCounter : Bool) (it : DedupSeriesIterator) (lastFloatValue : ℚ) :
    DedupSeriesIterator :=
  let it := if it.aval = .valFloat then
    { it with a := it.a.adjustAtValue isCounter lastFloatValue } else it
  if it.bval = .valFloat then { it with b := it.b.adjustAtValue isCounter lastFloatValue } else it

/-- The first part of `Next`: each replica not exhausted is advanced past
`lastT` and its penalty. -/
def seekBoth (it : DedupSeriesIterator) : DedupSeriesIterator :=
  let it := if it.aval ≠ .valNone then
    let r := it.a.seek (wrapInt64 (it.lastT + 1 + it.penA))
    { it with a := r.1, aval := r.2 } else it
  if it.bval ≠ .valNone then
    let r := it.b.seek (wrapInt64 (it.lastT + 1 + it.penB))
    { it with b := r.1, bval := r.2 } else it

/-- The rest of `Next`: the replica to read from, and the penalties. -/
def pick (it : DedupSeriesIterator) : DedupSeriesIterator × ValueType :=
  if it.aval = .valNone then
    if it.bval ≠ .valNone then
      ({ it with useA := false, lastT := it.b.atT, lastIterA := false, penB := 0 }, it.bval)
    else ({ it with useA := false }, it.bval)
  else if it.bval = .valNone then
    ({ it with useA := true, lastT := it.a.atT, lastIterA := true, penA := 0 }, it.aval)
  else if it.a.atT ≤ it.b.atT then
    ({ it with
        useA := true
        penB := if it.lastT ≠ minInt64 then wrapInt64 (2 * (it.a.atT - it.lastT)) else initialPenalty
        penA := 0
        lastT := it.a.atT
        lastIterA := true }, it.aval)
  else
    ({ it with
        useA := false
        penA := if it.lastT ≠ minInt64 then wrapInt64 (2 * (it.b.atT - it.lastT)) else initialPenalty
        penB := 0
        lastT := it.b.atT
        lastIterA := false }, it.bval)

/-- `Next`. The value of `lastIter` is read before the step; when the step
switches replicas, the deferred call adjusts both replicas to it, after the
returned value is taken. -/
def next (isCounter : Bool) (it : DedupSeriesIterator) : DedupSeriesIterator × ValueType :=
  let (lastFloatVal, isFloatVal) := it.lastFloatVal
  let r := it.seekBoth.pick
  (if r.1.useA ≠ it.useA ∧ isFloatVal then r.1.adjustAtValue isCounter lastFloatVal else r.1, r.2)

def atT (it : DedupSeriesIterator) : Int :=
  if it.useA then it.a.atT else it.b.atT

def at' (it : DedupSeriesIterator) : Int × ℚ :=
  it.lastIter.at'

/-- `Seek`, which calls `Next` until `AtT` reaches `t`, for at most `fuel` rounds. -/
def seekGo (isCounter : Bool) (t : Int) :
    Nat → DedupSeriesIterator → DedupSeriesIterator × ValueType
  | 0, it => (it, .valNone)
  | fuel + 1, it =>
    if t ≤ it.atT then
      if it.useA then
        let r := it.a.seek it.atT
        ({ it with a := r.1 }, r.2)
      else
        let r := it.b.seek it.atT
        ({ it with b := r.1 }, r.2)
    else
      let r := it.next isCounter
      if r.2 = .valNone then (r.1, .valNone) else seekGo isCounter t fuel r.1

/-- `Seek`: every round but the last consumes a sample, so the samples left
plus two rounds are enough. -/
def seek (isCounter : Bool) (it : DedupSeriesIterator) (t : Int) :
    DedupSeriesIterator × ValueType :=
  seekGo isCounter t (it.a.samples.length + it.b.samples.length + 2) it

/-- The loop of the tests' `expandSeries`: `Next` until it returns `ValNone`,
collecting `At`, for at most `fuel` rounds; with the iterator it leaves. -/
def expandGo (isCounter : Bool) :
    Nat → DedupSeriesIterator → List (Int × ℚ) × DedupSeriesIterator
  | 0, it => ([], it)
  | fuel + 1, it =>
    let r := it.next isCounter
    if r.2 = .valNone then ([], r.1)
    else
      let rest := expandGo isCounter fuel r.1
      (r.1.at' :: rest.1, rest.2)

/-- Every call of `Next` but the last emits a sample of one of the replicas. -/
def fuel (it : DedupSeriesIterator) : Nat :=
  it.a.samples.length + it.b.samples.length + 1

/-- The samples read from the iterator, `Next` after `Next`. -/
def expandSeries (isCounter : Bool) (it : DedupSeriesIterator) : List (Int × ℚ) :=
  (expandGo isCounter it.fuel it).1

/-- The iterator once `Next` has returned `ValNone`. -/
def exhausted (isCounter : Bool) (it : DedupSeriesIterator) : DedupSeriesIterator :=
  (expandGo isCounter it.fuel it).2

@[simp] theorem adjustAtValue_false (it : DedupSeriesIterator) (v : ℚ) :
    it.adjustAtValue false v = it := by
  simp [adjustAtValue]

/-- Without counter adjustment `Next` is the step alone. -/
theorem next_false (it : DedupSeriesIterator) : it.next false = it.seekBoth.pick := by
  simp [next]

section SeekBoth

variable {it : DedupSeriesIterator}

/-- A replica that has run out is not sought again, but seeking it would not
change it either. -/
theorem samples_eq_nil_of_valNone {r : ReplicaIterator} {v : ValueType} (h : v = r.valueType)
    (hv : v = .valNone) : r.samples = [] := by
  simpa [hv] using h.symm

/-- `seekBoth` on an iterator whose `aval` and `bval` are what its replicas
show, with seek targets that do not wrap: both replicas are sought. -/
theorem seekBoth_eq (hA : it.aval = it.a.valueType) (hB : it.bval = it.b.valueType)
    (htA : IsInt64 (it.lastT + 1 + it.penA)) (htB : IsInt64 (it.lastT + 1 + it.penB)) :
    it.seekBoth =
      { it with
        a := (it.a.seek (it.lastT + 1 + it.penA)).1
        aval := (it.a.seek (it.lastT + 1 + it.penA)).1.valueType
        b := (it.b.seek (it.lastT + 1 + it.penB)).1
        bval := (it.b.seek (it.lastT + 1 + it.penB)).1.valueType } := by
  obtain ⟨⟨as, ea⟩, ⟨bs, eb⟩, aval, bval, lastT, lastIterA, penA, penB, useA⟩ := it
  dsimp only at hA hB htA htB
  subst hA hB
  unfold seekBoth
  cases as <;> cases bs <;>
    simp [ReplicaIterator.seek, ReplicaIterator.valueType, wrapInt64_of_isInt64 htA,
      wrapInt64_of_isInt64 htB]

end SeekBoth

/-- Everything the second part of `Next` can do, once `aval` and `bval` are
what the replicas show: report the end, read the only replica left, or read the
replica with the earlier sample and put a penalty on the other one. -/
theorem pick_cases (s : DedupSeriesIterator) (hA : s.aval = s.a.valueType)
    (hB : s.bval = s.b.valueType) :
    (s.a.samples = [] ∧ s.b.samples = [] ∧ s.pick = ({ s with useA := false }, .valNone)) ∨
    (∃ q qs, s.a.samples = [] ∧ s.b.samples = q :: qs ∧
      s.pick = ({ s with useA := false, lastT := q.1, lastIterA := false, penB := 0 }, .valFloat)) ∨
    (∃ p ps, s.a.samples = p :: ps ∧ s.b.samples = [] ∧
      s.pick = ({ s with useA := true, lastT := p.1, lastIterA := true, penA := 0 }, .valFloat)) ∨
    (∃ p ps q qs, s.a.samples = p :: ps ∧ s.b.samples = q :: qs ∧ p.1 ≤ q.1 ∧
      s.pick = ({ s with
        useA := true
        penB := if s.lastT ≠ minInt64 then wrapInt64 (2 * (p.1 - s.lastT)) else initialPenalty
        penA := 0
        lastT := p.1
        lastIterA := true }, .valFloat)) ∨
    (∃ p ps q qs, s.a.samples = p :: ps ∧ s.b.samples = q :: qs ∧ q.1 < p.1 ∧
      s.pick = ({ s with
        useA := false
        penA := if s.lastT ≠ minInt64 then wrapInt64 (2 * (q.1 - s.lastT)) else initialPenalty
        penB := 0
        lastT := q.1
        lastIterA := false }, .valFloat)) := by
  rcases ha : s.a.samples with _ | ⟨p, ps⟩ <;> rcases hb : s.b.samples with _ | ⟨q, qs⟩
  · simp [pick, hA, hB, ha, hb, ReplicaIterator.valueType]
  · simp [pick, hA, hB, ha, hb, ReplicaIterator.valueType, ReplicaIterator.atT_eq hb]
  · simp [pick, hA, hB, ha, hb, ReplicaIterator.valueType, ReplicaIterator.atT_eq ha]
  · by_cases hpq : p.1 ≤ q.1
    · simp [pick, hA, hB, ha, hb, ReplicaIterator.valueType, ReplicaIterator.atT_eq ha,
        ReplicaIterator.atT_eq hb, hpq]
    · simp [pick, hA, hB, ha, hb, ReplicaIterator.valueType, ReplicaIterator.atT_eq ha,
        ReplicaIterator.atT_eq hb, hpq, lt_of_not_ge hpq]

end DedupSeriesIterator

open DedupSeriesIterator

/-- The samples the iterator of `dedupSeries.Iterator` emits for a non-counter
function: every replica after the first is merged in by one more
`newDedupSeriesIterator`, the iterator built so far standing for the samples it
emits (`seekGo_view`). -/
def dedupSeriesSamples (first : List (Int × ℚ)) (replicas : List (List (Int × ℚ))) :
    List (Int × ℚ) :=
  replicas.foldl (fun acc o => expandSeries false (newDedupSeriesIterator acc o)) first

/-- The nested iterators of `dedupSeries.Iterator` for a non-counter function,
innermost first: each merges the samples the one before emits with the next
replica. -/
def dedupSeriesIterators (first : List (Int × ℚ)) :
    List (List (Int × ℚ)) → List DedupSeriesIterator
  | [] => []
  | o :: os =>
    let it := newDedupSeriesIterator first o
    it :: dedupSeriesIterators (expandSeries false it) os

end Thanos.Dedup
