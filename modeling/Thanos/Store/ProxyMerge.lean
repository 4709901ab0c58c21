import Thanos.Store.StorePB
import Mathlib.Data.List.Sort

/-! # De-duplicating the replicas' series responses

`responseDeduplicator` reads the responses of a loser tree, sorted by labels, and
merges each run of series responses with equal labels into one series, whose
chunks are the run's chunks with identical ones removed
(`chainSeriesAndRemIdenticalChunks`). A chunk is keyed by the hash of one of its
sub-chunks: the loop over the sub-chunks stops at the first whose hash is not a key
yet, and the chunk goes in under it. A second copy of an aggregate chunk finds its
first sub-chunk's hash taken and goes in again under the next one, so it is kept
twice (`dedup_keeps_identical_aggregate_chunk_twice`).

The loser tree is the list of its responses, `Next` popping the head. The Go map
`chunkDedupMap` is a list of key and chunk in insertion order; its values are sorted
by `AggrChunk.Compare` after, which fixes their order up to chunks that compare
equal. `sort.Slice` is a stable insertion sort here. -/

namespace Thanos.Store

/-- The key of a sub-chunk: its `Hash`, or the xxHash of its bytes when that is zero. -/
def chunkHash (field : Chunk) : UInt64 := if field.hash = 0 then XXHash.sum64 field.data else field.hash

/-- The sub-chunks in the order `chainSeriesAndRemIdenticalChunks` tries them. -/
def AggrChunk.dedupFields (chk : AggrChunk) : List (Option Chunk) :=
  [chk.raw, chk.count, chk.max, chk.min, chk.sum, chk.counter]

/-- The loop over the sub-chunks of `chk`: it goes in under the first hash that is
not a key yet. -/
def insertByFields (chk : AggrChunk) : List (Option Chunk) → List (UInt64 × AggrChunk) → List (UInt64 × AggrChunk)
  | [], chunkDedupMap => chunkDedupMap
  | none :: fields, chunkDedupMap => insertByFields chk fields chunkDedupMap
  | some field :: fields, chunkDedupMap =>
    if (chunkDedupMap.lookup (chunkHash field)).isSome then insertByFields chk fields chunkDedupMap
    else chunkDedupMap ++ [(chunkHash field, chk)]

/-- The chunks of a run of series responses, keyed by `insertByFields`. -/
def dedupMapOf (series : List SeriesResponse) : List (UInt64 × AggrChunk) :=
  series.foldl (fun chunkDedupMap s =>
    ((s.getSeries.map Series.chunks).getD []).foldl
      (fun chunkDedupMap chk => insertByFields chk chk.dedupFields chunkDedupMap) chunkDedupMap) []

/-- `chainSeriesAndRemIdenticalChunks`; `none` is the index panic on an empty run,
which `Next` never passes. -/
def chainSeriesAndRemIdenticalChunks (series : List SeriesResponse) : Option SeriesResponse :=
  series.head?.map fun first =>
    if dedupMapOf series = [] then first
    else .series ⟨((first.getSeries.map Series.labels).getD []),
      ((dedupMapOf series).map Prod.snd).insertionSort fun a b => a.compare b ≥ 0⟩

/-- `responseDeduplicator`: the loser tree as the responses it has left. -/
structure ResponseDeduplicator where
  h : List SeriesResponse
  bufferedSameSeries : List SeriesResponse
  bufferedResp : List SeriesResponse
  buffRespI : Nat
  prev : Option SeriesResponse
  ok : Bool
  deriving DecidableEq, Repr

def newResponseDeduplicator : List SeriesResponse → ResponseDeduplicator
  | [] => ⟨[], [], [], 0, none, false⟩
  | r :: h => ⟨h, [], [], 0, some r, true⟩

/-- The loop of `Next`, over the responses to read (`prev` first) with the buffers
so far. It ends at the first series with other labels than the run's, which becomes
`prev`, or when the tree is exhausted. -/
def nextLoop : List SeriesResponse → List SeriesResponse → List SeriesResponse → Bool × ResponseDeduplicator
  | [], bufferedResp, bufferedSameSeries =>
    let bufferedResp :=
      if bufferedSameSeries.length > 0 then bufferedResp ++ (chainSeriesAndRemIdenticalChunks bufferedSameSeries).toList
      else bufferedResp
    (decide (bufferedResp.length > 0), ⟨[], bufferedSameSeries, bufferedResp, 0, none, false⟩)
  | s :: h, bufferedResp, bufferedSameSeries =>
    match s.getSeries with
    | none => nextLoop h (bufferedResp ++ [s]) bufferedSameSeries
    | some atSeries =>
      match bufferedSameSeries with
      | [] => nextLoop h bufferedResp [s]
      | first :: _ =>
        if labelsCompare ((first.getSeries.map Series.labels).getD []) atSeries.labels = 0 then
          nextLoop h bufferedResp (bufferedSameSeries ++ [s])
        else
          (true, ⟨h, bufferedSameSeries,
            bufferedResp ++ (chainSeriesAndRemIdenticalChunks bufferedSameSeries).toList, 0, some s, true⟩)

def ResponseDeduplicator.next (d : ResponseDeduplicator) : Bool × ResponseDeduplicator :=
  if d.buffRespI + 1 < d.bufferedResp.length then (true, { d with buffRespI := d.buffRespI + 1 })
  else if !d.ok && d.prev.isNone then (false, d)
  else nextLoop (d.prev.toList ++ d.h) [] []

def ResponseDeduplicator.at (d : ResponseDeduplicator) : Option SeriesResponse := d.bufferedResp[d.buffRespI]?

/-- What a reader sees calling `At` after each `Next` that returns true, for at most
`fuel` calls. -/
def ResponseDeduplicator.responses : Nat → ResponseDeduplicator → List SeriesResponse
  | 0, _ => []
  | fuel + 1, d =>
    match d.next with
    | (true, d') => d'.at.toList ++ responses fuel d'
    | (false, _) => []

/-- Two replicas answer the series `{a="1"}` with the same downsampled chunk, its
count and sum sub-chunks set. The second copy finds the count's hash taken, goes in
under the sum's, and the merged series holds the chunk twice. -/
theorem dedup_keeps_identical_aggregate_chunk_twice :
    (newResponseDeduplicator
        [.series ⟨[⟨"a", "1"⟩], [⟨0, 10, none, some ⟨1, [1], 0⟩, some ⟨1, [2], 0⟩, none, none, none⟩]⟩,
         .series ⟨[⟨"a", "1"⟩], [⟨0, 10, none, some ⟨1, [1], 0⟩, some ⟨1, [2], 0⟩, none, none, none⟩]⟩]).responses 4 =
      [.series ⟨[⟨"a", "1"⟩],
        [⟨0, 10, none, some ⟨1, [1], 0⟩, some ⟨1, [2], 0⟩, none, none, none⟩,
         ⟨0, 10, none, some ⟨1, [1], 0⟩, some ⟨1, [2], 0⟩, none, none, none⟩]⟩] := by
  decide +kernel

end Thanos.Store
