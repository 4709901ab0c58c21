import Thanos.Downsample.Basic

/-! # Downsampling raw float series

`downsampleBatch` folds a batch of samples window by window, calling `add` at
the end of every window; `downsampleFloatBatch` turns one batch into an
aggregate chunk and frames its counter sub-chunk with the first and the last
raw value; `downsampleRawLoop` cuts the series into batches that never split a
window and drops NaN samples. -/

namespace Thanos.Downsample

variable {β : Type}

/-- The loop of `downsampleBatch` over the samples left, with the current window
end `nextT`, the aggregator and the state `add` writes to. -/
def downsampleBatchLoop (resolution lastT : Int) (add : Int → FloatAggregator → β → β) :
    List (Int × ℚ) → Int → FloatAggregator → β → Int × FloatAggregator × β
  | [], nextT, aggr, b => (nextT, aggr, b)
  | s :: rest, nextT, aggr, b =>
    if s.1 > nextT then
      let b := if nextT ≠ -1 then add nextT aggr b else b
      -- the window end is capped at the batch's last timestamp
      let nextT := min (currentWindow s.1 resolution) lastT
      downsampleBatchLoop resolution lastT add rest nextT (aggr.reset.add s) b
    else downsampleBatchLoop resolution lastT add rest nextT (aggr.add s) b

/-- `downsampleBatch`: aggregate `data` over windows of `resolution`, calling
`add` with each window end, and return the last window end. Callers never pass
an empty batch (Go reads `data[len(data)-1]`). -/
def downsampleBatch (data : List (Int × ℚ)) (resolution : Int) (aggr : FloatAggregator)
    (add : Int → FloatAggregator → β → β) (b : β) : Int × β :=
  let lastT := (data.getLast?.map Prod.fst).getD 0
  let r := downsampleBatchLoop resolution lastT add data (-1) aggr b
  (r.1, if r.2.1.total > 0 then add r.1 r.2.1 r.2.2 else r.2.2)

/-- `downsampleFloatBatch`: the aggregate chunk of one non-empty batch. The
counter sub-chunk starts with the first raw value and ends with the last raw
value repeated at the last window end; see `ApplyCounterResetsSeriesIterator`. -/
def downsampleFloatBatch (batch : List (Int × ℚ)) (resolution : Int) : ChunkMeta :=
  let first := batch.headD (0, 0)
  let ab := { newAggrChunkBuilder with
    chunks := newAggrChunkBuilder.chunks.append .counter first }
  let r := downsampleBatch batch resolution {} (fun t a ab => ab.add t a) ab
  let ab := r.2
  { ab with chunks := ab.chunks.append .counter (r.1, (batch.getLastD (0, 0)).2) }.encode

/-- The non-NaN samples of a series, in order. -/
def numeric (data : List Sample) : List (Int × ℚ) := data.filterMap fun s => s.v.map (s.t, ·)

/-- The loop of `downsampleRawLoop` over the samples left. `q` is
`len(data) / numChunks` of the whole input, so a batch takes at least `q + 1`
samples, and then every further sample of the window its last one falls in. -/
def downsampleRawLoopGo (resolution : Int) (q : Nat)
    (downsampleBatchFn : List (Int × ℚ) → Int → ChunkMeta) : List Sample → List ChunkMeta
  | [] => []
  | d :: ds =>
    let j := min (q + 1) (ds.length + 1)
    let curW := currentWindow (((d :: ds).take j).getLastD d).t resolution
    let j := j + (((d :: ds).drop j).takeWhile (·.t ≤ curW)).length
    let batch := numeric ((d :: ds).take j)
    let rest := downsampleRawLoopGo resolution q downsampleBatchFn ((d :: ds).drop j)
    if batch = [] then rest else downsampleBatchFn batch resolution :: rest
termination_by data => data.length
decreasing_by
  simp only [List.length_drop, List.length_cons]
  omega

/-- `downsampleRawLoop`: the aggregate chunks of a raw series. Callers pass
`numChunks ≥ 1` (`targetChunkCount`); Go would divide by zero otherwise. -/
def downsampleRawLoop (data : List Sample) (resolution : Int) (numChunks : Nat)
    (downsampleBatchFn : List (Int × ℚ) → Int → ChunkMeta) : List ChunkMeta :=
  downsampleRawLoopGo resolution (data.length / numChunks) downsampleBatchFn data

end Thanos.Downsample
