import Mathlib.Algebra.Order.Ring.Rat

/-! # Downsampling: samples, aggregate chunks and the float aggregator

The data model of `pkg/compact/downsample`. A raw float series is a list of
`sample`s; downsampling folds the samples of each resolution window into a
`floatAggregator` and appends one sample per window to every sub-chunk of an
`aggrChunkBuilder`. Values compute exactly on `ℚ`, NaN is `none`, and the
int64 timestamps are `Int`. An XOR chunk is the list of samples appended to
it, which is what its iterator yields back; histogram samples are not
modelled. -/

namespace Thanos.Downsample

/-- `math.MaxInt64`, the sentinel of a minimum time that was never set. -/
def maxInt64 : Int := 2 ^ 63 - 1

/-- `math.MinInt64`, the sentinel of a maximum time that was never set. -/
def minInt64 : Int := -2 ^ 63

/-- `math.MaxFloat64`, the largest finite float64, as an exact rational. -/
def maxFloat64 : ℚ := (2 ^ 53 - 1) * 2 ^ 971

/-- A float `sample`: its timestamp and its value, `none` standing for NaN. -/
structure Sample where
  t : Int
  v : Option ℚ
deriving DecidableEq, Repr

/-- An XOR chunk as the samples appended to it, in order. Aggregate values are
never NaN, so they are plain rationals. -/
abbrev XorChunk := List (Int × ℚ)

/-- An XOR chunk read as raw samples, for `ApplyCounterResetsSeriesIterator`. -/
def XorChunk.samples (c : XorChunk) : List Sample := c.map fun p => ⟨p.1, some p.2⟩

/-- `AggrType`: which aggregate a sub-chunk holds. -/
inductive AggrType
  | count
  | sum
  | min
  | max
  | counter
deriving DecidableEq, Repr

/-- The five sub-chunks of an aggregate chunk, `none` for an unset aggregate: the
`[5]chunkenc.Chunk` that `EncodeAggrChunk` encodes and `AggrChunk.Get` reads back. -/
structure AggrChunk where
  count : Option XorChunk := none
  sum : Option XorChunk := none
  min : Option XorChunk := none
  max : Option XorChunk := none
  counter : Option XorChunk := none
deriving DecidableEq, Repr

/-- `AggrChunk.Get`: the sub-chunk of aggregate `a`, `none` for `ErrAggrNotExist`. -/
def AggrChunk.get (c : AggrChunk) : AggrType → Option XorChunk
  | .count => c.count
  | .sum => c.sum
  | .min => c.min
  | .max => c.max
  | .counter => c.counter

/-- `ab.chunks[a] = x`. -/
def AggrChunk.set (c : AggrChunk) : AggrType → Option XorChunk → AggrChunk
  | .count, x => { c with count := x }
  | .sum, x => { c with sum := x }
  | .min, x => { c with min := x }
  | .max, x => { c with max := x }
  | .counter, x => { c with counter := x }

@[simp] theorem AggrChunk.get_set_self (c : AggrChunk) (a : AggrType) (x : Option XorChunk) :
    (c.set a x).get a = x := by
  cases a <;> rfl

@[simp] theorem AggrChunk.get_set_of_ne (c : AggrChunk) {a b : AggrType} (x : Option XorChunk)
    (h : a ≠ b) : (c.set a x).get b = c.get b := by
  cases a <;> cases b <;> first | rfl | exact absurd rfl h

/-- `ab.apps[a].Append(t, v)`: append a sample to the sub-chunk of aggregate `a`. -/
def AggrChunk.append (c : AggrChunk) (a : AggrType) (p : Int × ℚ) : AggrChunk :=
  c.set a ((c.get a).map (· ++ [p]))

@[simp] theorem AggrChunk.get_append_self (c : AggrChunk) (a : AggrType) (p : Int × ℚ) :
    (c.append a p).get a = (c.get a).map (· ++ [p]) := by
  simp [AggrChunk.append]

@[simp] theorem AggrChunk.get_append_of_ne (c : AggrChunk) {a b : AggrType} (p : Int × ℚ)
    (h : a ≠ b) : (c.append a p).get b = c.get b := by
  simp [AggrChunk.append, h]

/-- `chunks.Meta` of a downsampled chunk. -/
structure ChunkMeta where
  minTime : Int
  maxTime : Int
  chunk : AggrChunk
deriving DecidableEq, Repr

/-- `currentWindow`: the end timestamp of the resolution window that `t` falls
into. Go's `%` truncates toward zero. -/
def currentWindow (t r : Int) : Int := t - t.tmod r + r - 1

/-- `floatAggregator`: window statistics and the reset-corrected counter state. -/
structure FloatAggregator where
  total : Nat := 0
  count : Nat := 0
  sum : ℚ := 0
  min : ℚ := 0
  max : ℚ := 0
  counter : ℚ := 0
  resets : Nat := 0
  last : ℚ := 0
deriving DecidableEq, Repr

/-- `floatAggregator.reset`: start a new aggregation window. -/
def FloatAggregator.reset (a : FloatAggregator) : FloatAggregator :=
  { a with count := 0, sum := 0, min := maxFloat64, max := -maxFloat64 }

/-- `floatAggregator.add`. A value below the last one is a counter reset and is
added whole; otherwise the delta to the last value is added. -/
def FloatAggregator.add (a : FloatAggregator) (s : Int × ℚ) : FloatAggregator :=
  let v := s.2
  let counterResets : ℚ × Nat :=
    if a.total > 0 then
      if v < a.last then (a.counter + v, a.resets + 1) else (a.counter + (v - a.last), a.resets)
    else (v, a.resets)
  { total := a.total + 1
    count := a.count + 1
    sum := a.sum + v
    min := if v < a.min then v else a.min
    max := if v > a.max then v else a.max
    counter := counterResets.1
    resets := counterResets.2
    last := v }

@[simp] theorem FloatAggregator.reset_total (a : FloatAggregator) : a.reset.total = a.total := rfl
@[simp] theorem FloatAggregator.reset_counter (a : FloatAggregator) :
    a.reset.counter = a.counter := rfl
@[simp] theorem FloatAggregator.reset_last (a : FloatAggregator) : a.reset.last = a.last := rfl
@[simp] theorem FloatAggregator.add_total (a : FloatAggregator) (s : Int × ℚ) :
    (a.add s).total = a.total + 1 := rfl
@[simp] theorem FloatAggregator.add_last (a : FloatAggregator) (s : Int × ℚ) :
    (a.add s).last = s.2 := rfl
@[simp] theorem FloatAggregator.reset_count (a : FloatAggregator) : a.reset.count = 0 := rfl
@[simp] theorem FloatAggregator.reset_sum (a : FloatAggregator) : a.reset.sum = 0 := rfl
@[simp] theorem FloatAggregator.reset_min (a : FloatAggregator) : a.reset.min = maxFloat64 := rfl
@[simp] theorem FloatAggregator.reset_max (a : FloatAggregator) : a.reset.max = -maxFloat64 := rfl
@[simp] theorem FloatAggregator.add_count (a : FloatAggregator) (s : Int × ℚ) :
    (a.add s).count = a.count + 1 := rfl
@[simp] theorem FloatAggregator.add_sum (a : FloatAggregator) (s : Int × ℚ) :
    (a.add s).sum = a.sum + s.2 := rfl

/-- `add` keeps the least value: a value equal to the minimum leaves it as it is. -/
@[simp] theorem FloatAggregator.add_min (a : FloatAggregator) (s : Int × ℚ) :
    (a.add s).min = Min.min s.2 a.min := by
  simp only [FloatAggregator.add]
  split
  · exact (min_eq_left (le_of_lt ‹_›)).symm
  · exact (min_eq_right (not_lt.mp ‹_›)).symm

@[simp] theorem FloatAggregator.add_max (a : FloatAggregator) (s : Int × ℚ) :
    (a.add s).max = Max.max s.2 a.max := by
  simp only [FloatAggregator.add]
  split
  · exact (max_eq_left (le_of_lt ‹_›)).symm
  · exact (max_eq_right (not_lt.mp ‹_›)).symm

/-- `aggrChunkBuilder` for floats: the time range of the windows added so far
and the five sub-chunks. -/
structure AggrChunkBuilder where
  mint : Int
  maxt : Int
  added : Nat
  chunks : AggrChunk
deriving DecidableEq, Repr

/-- `newAggrChunkBuilder`: all five sub-chunks exist and are empty. -/
def newAggrChunkBuilder : AggrChunkBuilder :=
  { mint := maxInt64, maxt := minInt64, added := 0
    chunks := { count := some [], sum := some [], min := some [], max := some [], counter := some [] } }

/-- `aggrChunkBuilder.add`: one sample per aggregate at the window end `t`. -/
def AggrChunkBuilder.add (b : AggrChunkBuilder) (t : Int) (a : FloatAggregator) :
    AggrChunkBuilder :=
  { mint := if t < b.mint then t else b.mint
    maxt := if t > b.maxt then t else b.maxt
    added := b.added + 1
    chunks := ((((b.chunks.append .sum (t, a.sum)).append .min (t, a.min)).append .max
      (t, a.max)).append .count (t, (a.count : ℚ))).append .counter (t, a.counter) }

/-- The value of aggregate `x` of an aggregator, as `aggrChunkBuilder.add` appends it. -/
def FloatAggregator.value (a : FloatAggregator) : AggrType → ℚ
  | .count => a.count
  | .sum => a.sum
  | .min => a.min
  | .max => a.max
  | .counter => a.counter

theorem AggrChunkBuilder.add_get (b : AggrChunkBuilder) (t : Int) (a : FloatAggregator) (x : AggrType) :
    (b.add t a).chunks.get x = (b.chunks.get x).map (· ++ [(t, a.value x)]) := by
  cases x <;> simp [AggrChunkBuilder.add, FloatAggregator.value]

@[simp] theorem AggrChunkBuilder.add_mint (b : AggrChunkBuilder) (t : Int) (a : FloatAggregator) :
    (b.add t a).mint = min t b.mint := by
  simp only [AggrChunkBuilder.add]
  split
  · exact (min_eq_left (le_of_lt ‹_›)).symm
  · exact (min_eq_right (not_lt.mp ‹_›)).symm

@[simp] theorem AggrChunkBuilder.add_maxt (b : AggrChunkBuilder) (t : Int) (a : FloatAggregator) :
    (b.add t a).maxt = max t b.maxt := by
  simp only [AggrChunkBuilder.add]
  split
  · exact (max_eq_left (le_of_lt ‹_›)).symm
  · exact (max_eq_right (not_lt.mp ‹_›)).symm

/-- `aggrChunkBuilder.encode`. -/
def AggrChunkBuilder.encode (b : AggrChunkBuilder) : ChunkMeta :=
  { minTime := b.mint, maxTime := b.maxt, chunk := b.chunks }

end Thanos.Downsample
