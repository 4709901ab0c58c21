import Thanos.Lib.CounterTotal
import Thanos.Downsample.Basic
import Thanos.Downsample.Raw
import Thanos.Downsample.CounterResets
import Thanos.Downsample.Aggr
import Thanos.Downsample.Windows
import Thanos.Downsample.CounterProtocol
import Thanos.Downsample.CounterFrames
import Thanos.Downsample.RawWindows
import Thanos.Dedup.Iter
import Thanos.Dedup.Merge
import Thanos.Dedup.Series
import Thanos.Dedup.OverlapSplit
import Thanos.Dedup.SeriesSet
import Thanos.Go.Sort
import Thanos.QueryRange.Merge
import Thanos.QueryRange.MergeSpec
import Thanos.Store.BlockSet
import Thanos.Store.CachingBucket
import Thanos.IndexHeader.BinaryReader
import Thanos.IndexHeader.FullTable
import Thanos.IndexHeader.Init
import Thanos.IndexHeader.Reader
import Thanos.Go.XXHash
import Thanos.QueryFrontend.SplitByInterval
import Thanos.QuerySharding.Analysis
import Thanos.QuerySharding.Soundness
import Thanos.Receive.Hashring
import Thanos.Receive.Replicas
import Thanos.Lib.TakeDistinct
import Thanos.Receive.Consistency
import Thanos.Lib.Compare
import Thanos.Lib.SortedMerge
import Thanos.Store.StorePB
import Thanos.Store.ProxyMerge
import Thanos.Lib.HeapPos
import Thanos.LoserTree.Tree
import Thanos.LoserTree.Games
import Thanos.LoserTree.Merge
import Thanos.Store.SeriesSet
import Thanos.Lib.Regexp
import Thanos.Store.TSDBSelector
import Thanos.Go.Binary
import Thanos.Store.IndexSeries
import Thanos.Downsample.AggrBytes
import Thanos.Lib.GreedyCover
import Thanos.Block.Deduplicate
import Thanos.Compact.Modifiers
import Thanos.Lib.RangeTiling
import Thanos.Store.Partitioner
import Thanos.Store.LoadSeries
import Thanos.Store.FetchPostings
import Thanos.Store.ChunkReader
import Thanos.Store.ChunkLoad
import Thanos.Compact.Planner
import Thanos.Compact.Filters
import Thanos.Compact.Progress
import Thanos.Lib.Tally
import Thanos.Receive.Fanout
import Thanos.Lib.Ascending
import Thanos.Lib.SeekIter
import Thanos.Query.Iter
import Thanos.Query.IterRefinement
import Thanos.QueryRange.ResultsCache
