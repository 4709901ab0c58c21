import Mathlib
import Thanos.Downsample.Raw
import Thanos.Downsample.CounterResets

/-! # Downsampling aggregate chunks

`downsampleAggrLoop` cuts a sequence of aggregate chunks into batches along
chunk boundaries; `downsampleFloatAggrBatch` re-aggregates count, sum, min and
max generically, and the counter through `ApplyCounterResetsSeriesIterator`,
framing the new counter sub-chunk again with the first and the last raw
value. -/

namespace Thanos.Downsample

/-- The loop of `expandXorChunkIterator` with the last timestamp kept. -/
def expandXorChunkIteratorGo : Int → List (Int × ℚ) → List (Int × ℚ)
  | _, [] => []
  | lastT, p :: ps =>
    if p.1 ≥ lastT then p :: expandXorChunkIteratorGo p.1 ps
    else expandXorChunkIteratorGo lastT ps

/-- `expandXorChunkIterator`: the samples an iterator yields, skipping any that
go back in time (from timestamp `0` on). The values drained here are
aggregates, never the stale NaN the Go code also skips. -/
def expandXorChunkIterator (xs : List (Int × ℚ)) : List (Int × ℚ) :=
  expandXorChunkIteratorGo 0 xs

/-- `genericAggregate`: re-aggregate sub-chunk `a` of `chks` with `f` into `ab`;
returns the window ends' minimum and maximum, `(0, 0)` when nothing is there. -/
def genericAggregate (a : AggrType) (chks : List AggrChunk) (ab : AggrChunk)
    (resolution : Int) (f : FloatAggregator → ℚ) : Int × Int × AggrChunk :=
  let buf := chks.flatMap fun c => ((c.get a).map expandXorChunkIterator).getD []
  if buf = [] then (0, 0, ab)
  else
    let r := downsampleBatch buf resolution {}
      (fun t agg (s : Int × Int × AggrChunk) =>
        (min t s.1, max t s.2.1, s.2.2.append a (t, f agg)))
      (maxInt64, minInt64, ab.set a (some []))
    r.2

/-- `downsampleFloatAggrBatch`: one aggregate chunk from a batch of them. -/
def downsampleFloatAggrBatch (chks : List AggrChunk) (resolution : Int) : ChunkMeta :=
  let rc := genericAggregate .count chks {} resolution (·.sum)
  let rs := genericAggregate .sum chks rc.2.2 resolution (·.sum)
  let rn := genericAggregate .min chks rs.2.2 resolution (·.min)
  let rx := genericAggregate .max chks rn.2.2 resolution (·.max)
  let mint := min (min (min (min maxInt64 rc.1) rs.1) rn.1) rx.1
  let maxt := max (max (max (max minInt64 rc.2.1) rs.2.1) rn.2.1) rx.2.1
  -- counters: apply the resets across the batch's chunks
  let it := applyCounterResets (chks.filterMap fun c => (c.get .counter).map XorChunk.samples)
  let buf := expandXorChunkIterator it.1
  match buf with
  | [] => { minTime := mint, maxTime := maxt, chunk := rx.2.2 }
  | first :: _ =>
    let r := downsampleBatch buf resolution {}
      (fun t agg (s : Int × Int × AggrChunk) =>
        (min t s.1, max t s.2.1, s.2.2.append .counter (t, agg.counter)))
      (mint, maxt, rx.2.2.set .counter (some [first]))
    { minTime := r.2.1, maxTime := r.2.2.1, chunk := r.2.2.2.append .counter (r.1, it.2.lastV) }

/-- The loop of `downsampleAggrLoop` over the chunks left; `none` when it never
ends, which happens when `batchSize` is `0` and the empty batch passes the
range check. -/
def downsampleAggrLoopGo (resolution : Int) (batchSize : Nat)
    (downsampleAggr : List AggrChunk → Int → ChunkMeta) :
    List AggrChunk → Option (Except String (List ChunkMeta))
  | [] => some (.ok [])
  | c :: cs =>
    let chk := downsampleAggr ((c :: cs).take batchSize) resolution
    let mint := chk.minTime
    let maxt := chk.maxTime
    if mint = maxInt64 ∨ maxt = minInt64 then
      some (.error s!"invalid range for downsampled aggregate chunk: mint={mint} maxt={maxt}")
    else if _h : batchSize = 0 then none
    else (downsampleAggrLoopGo resolution batchSize downsampleAggr ((c :: cs).drop batchSize)).map
      (·.map (chk :: ·))
termination_by chks => chks.length
decreasing_by
  simp only [List.length_drop, List.length_cons]
  omega

/-- `downsampleAggrLoop`: re-downsample aggregate chunks along chunk boundaries,
in batches of `len(chks) / numChunks` chunks. -/
def downsampleAggrLoop (chks : List AggrChunk) (resolution : Int) (numChunks : Nat)
    (downsampleAggr : List AggrChunk → Int → ChunkMeta) : Option (Except String (List ChunkMeta)) :=
  downsampleAggrLoopGo resolution (chks.length / numChunks) downsampleAggr chks

/-! ## `downsampleAggr` -/

/-- `AggrChunk.NumSamples`: the samples of the count sub-chunk, `0` when it is unset. -/
def AggrChunk.numSamples (c : AggrChunk) : Nat := ((c.get .count).map List.length).getD 0

/-- Go's conversion of a float to `int`, truncating toward zero. -/
def truncate (q : ℚ) : Int := q.num.tdiv q.den

/-- `rangeFullness`: how densely `count` samples `step` apart fill `[mint, maxt]`, at
most `1`. Float arithmetic computes exactly here. -/
def rangeFullness (mint maxt step : Int) (count : Nat) : ℚ :=
  let f : ℚ := count / (((maxt - mint : Int) : ℚ) / step)
  if f > 1 then 1 else f

/-- The loop `for x = 1; expSamples/x > 140; x++` of `targetChunkCount`, for at most
`fuel` steps. -/
def targetChunkCountLoop (expSamples : Int) : Nat → Nat → Nat
  | 0, x => x
  | fuel + 1, x => if expSamples.tdiv x > 140 then targetChunkCountLoop expSamples fuel (x + 1) else x

/-- `targetChunkCount`: how many chunks a series of `count` samples of resolution
`inRes` in `[mint, maxt]` should be downsampled into at resolution `outRes`. The loop
stops at the latest when `x` reaches `expSamples`, so `expSamples` steps suffice. -/
def targetChunkCount (mint maxt inRes outRes : Int) (count : Nat) : Nat :=
  let maxSamples : ℚ := (maxt - mint).tdiv outRes
  let expSamples := truncate (maxSamples * rangeFullness mint maxt inRes count) + 1
  targetChunkCountLoop expSamples expSamples.toNat 1

/-- `downsampleAggr` for float aggregate chunks: re-downsample `chks` at `outRes` in as
many batches as `targetChunkCount` asks for. -/
def downsampleAggr (chks : List AggrChunk) (mint maxt inRes outRes : Int) :
    Option (Except String (List ChunkMeta)) :=
  let numSamples := (chks.map AggrChunk.numSamples).sum
  let numChunks := targetChunkCount mint maxt inRes outRes numSamples
  downsampleAggrLoop chks outRes numChunks downsampleFloatAggrBatch

/-- An empty batch has no aggregate, and its time range is `[0, 0]`, which passes the
range check. -/
theorem downsampleFloatAggrBatch_nil (resolution : Int) :
    downsampleFloatAggrBatch [] resolution = { minTime := 0, maxTime := 0, chunk := {} } := by
  rfl

/-- With fewer chunks than target chunks the batch size is `0`: the loop takes the empty
batch again and again and never ends. -/
theorem downsampleAggrLoop_eq_none_of_lt (resolution : Int) {chks : List AggrChunk} {numChunks : Nat}
    (hne : chks ≠ []) (hlt : chks.length < numChunks) :
    downsampleAggrLoop chks resolution numChunks downsampleFloatAggrBatch = none := by
  obtain ⟨c, cs, rfl⟩ := List.exists_cons_of_ne_nil hne
  rw [downsampleAggrLoop, Nat.div_eq_of_lt hlt, downsampleAggrLoopGo]
  simp [downsampleFloatAggrBatch_nil, maxInt64, minInt64]

/-- A five-minute aggregate chunk holding 141 hours of windows, re-downsampled to one
hour: `targetChunkCount` asks for two chunks, one more than there are, so the batch
size `len(chks) / numChunks` is `0` and `downsampleAggr` never returns. -/
theorem downsampleAggr_dense_chunk_hangs :
    downsampleAggr
      [{ count := some ((List.range 1692).map fun i : Nat => ((i : Int) * 300000 + 299999, 1))
         sum := some ((List.range 1692).map fun i : Nat => ((i : Int) * 300000 + 299999, 1))
         min := some ((List.range 1692).map fun i : Nat => ((i : Int) * 300000 + 299999, 1))
         max := some ((List.range 1692).map fun i : Nat => ((i : Int) * 300000 + 299999, 1))
         counter := some ((List.range 1692).map fun i : Nat => ((i : Int) * 300000 + 299999, 1)) }]
      299999 (1691 * 300000 + 299999) 300000 3600000 = none := by
  have hn : targetChunkCount 299999 (1691 * 300000 + 299999) 300000 3600000 1692 = 2 := by decide +kernel
  simp only [downsampleAggr, List.map_cons, List.map_nil, AggrChunk.numSamples, AggrChunk.get, Option.map_some,
    List.length_map, List.length_range, Option.getD_some, List.sum_cons, List.sum_nil, Nat.add_zero, hn]
  exact downsampleAggrLoop_eq_none_of_lt _ (List.cons_ne_nil _ _) (by decide)

end Thanos.Downsample
