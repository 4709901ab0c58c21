import Thanos.QueryRange.Merge
import Thanos.Store.BlockSet
import Thanos.Store.CachingBucket
import Thanos.Go.Binary

/-! # The query frontend's results cache

`resultsCache.Do` serves a range query from the extents cached under the query's key: a time
range each, with the response computed for it. `partition` cuts out of the cached extents what
overlaps the request and asks the handler below for the parts in between; `handleHit` merges
the parts into the response with `MergeResponse`, adds the new parts to the extents, merges the
extents that meet or overlap, and `Do` stores them back, cut at the last time whose data may
still change (`filterRecentExtents`). On a miss the whole response is asked for and stored.

The handler below is a parameter, as are the parts of the cache that are not this package's: the
hash of the memcached key, the parse of a query's `@` modifiers and offsets, and the arrival
order of the responses of `DoRequests`, whose goroutines answer in any order. The cache holds
decoded values, so that `toResponse` and the marshalling never fail; stats, trace ids and the
results-cache generation numbers (which Thanos does not load) are not modelled. A call's
result is `Result`: it returns, fails, or panics. -/

namespace Thanos.QueryRange

open Thanos.Store.Cache (Result)
open GoBinary (wrapInt64)

variable {H : Type}

/-- The fields of a `ThanosQueryRangeRequest` that the results cache, its key and `shouldCache`
read, in milliseconds. -/
structure Request where
  (start end' step : Int)
  query : String
  /-- `GetSplitInterval().Milliseconds()`. -/
  splitInterval : Int
  maxSourceResolution : Int
  /-- `TotalShards` and `ShardIndex` of the `ShardInfo`, when there is one. -/
  shardInfo : Option (Int × Int)
  lookbackDelta : Int
  engine : String
  /-- The number of store matcher sets. -/
  storeMatchers : Nat
  dedup : Bool
  cachingDisabled : Bool
  deriving DecidableEq, Repr

def Request.withStartEnd (r : Request) (start end' : Int) : Request := { r with start, end' }

/-- `Extent`: a time range and the response cached for it. -/
structure Extent (H : Type) where
  (start end' : Int)
  response : PrometheusResponse H
  deriving DecidableEq, Repr

/-- `CachedResponse`: the extents of a key, filed under the key's hash. -/
structure CachedResponse (H : Type) where
  key : String
  extents : List (Extent H)
  deriving DecidableEq, Repr

/-- What the results cache reads besides the request: the handler it wraps, the tenant, the
`MaxCacheFreshness` limit, the memcached key of a key (`cache.HashKey`), and the parse of a
query: the times of its `@` modifiers once `start()` and `end()` are resolved for a range, and
its offsets, `none` when it does not parse. -/
structure ResultsCache (H : Type) where
  next : Request → Except String (PrometheusResponse H)
  tenant : String
  maxCacheFreshness : Int
  hashKey : String → String
  atModifierTimes : String → Int → Int → Option (List Int)
  offsets : String → Option (List Int)

/-- The store under the results cache: a cached response under each hashed key. -/
abbrev CacheStore (H : Type) := List (String × CachedResponse H)

def cacheControlHeader : String := "Cache-Control"
def noStoreValue : String := "no-store"

/-- `minCacheExtent`: five minutes. -/
def minCacheExtent : Int := 5 * 60 * 1000

/-- A handler's answer as a call's result. -/
def fromHandler {α : Type} : Except String α → Result α
  | .ok a => .ok a
  | .error e => .error e

/-- `shouldCache` of the Thanos query frontend. -/
def shouldCache (r : Request) : Bool :=
  if r.storeMatchers > 0 then false
  else if !r.dedup then false
  else !r.cachingDisabled

def generateShardInfoKey : Option (Int × Int) → String
  | none => "-"
  | some (totalShards, shardIndex) => toString totalShards ++ ":" ++ toString shardIndex

/-- `thanosCacheKeyGenerator.GenerateCacheKey` for a range query: the index of the first
resolution not above the request's maximum source resolution is part of the key. -/
def generateCacheKey (userID : String) (r : Request) : Result String :=
  if r.splitInterval = 0 then .panic "integer divide by zero"
  else
    let currentInterval := r.start.tdiv r.splitInterval
    let i := (Thanos.Store.resolutions.takeWhile (· > r.maxSourceResolution)).length
    .ok (":".intercalate ["fe", userID, r.query, toString r.step, toString r.splitInterval,
      toString currentInterval, toString i, generateShardInfoKey r.shardInfo,
      toString r.lookbackDelta, r.engine])

/-- `extractSampleStream`: the samples and histograms in `[start, end]`, `none` when there is
neither. -/
def extractSampleStream (start end' : Int) (stream : SampleStream H) : Option (SampleStream H) :=
  let samples := stream.samples.filter fun s => start ≤ s.timestampMs ∧ s.timestampMs ≤ end'
  let histograms := stream.histograms.filter fun h => start ≤ h.timestamp ∧ h.timestamp ≤ end'
  if samples.isEmpty && histograms.isEmpty then none
  else some ⟨stream.labels, samples, histograms⟩

def extractMatrix (start end' : Int) (matrix : List (SampleStream H)) : List (SampleStream H) :=
  matrix.filterMap (extractSampleStream start end')

/-- `PrometheusResponseExtractor.Extract`. -/
def extract (start end' : Int) (res : PrometheusResponse H) : PrometheusResponse H :=
  { res with result := extractMatrix start end' res.result }

/-- `PrometheusResponseExtractor.ResponseWithoutHeaders`. -/
def responseWithoutHeaders (resp : PrometheusResponse H) : PrometheusResponse H :=
  { resp with headers := [] }

namespace ResultsCache

variable (c : ResultsCache H)

/-- `isAtModifierCachable`: no `@` modifier after the end of the range or after `maxCacheTime`;
a query that does not parse is not cached. -/
def isAtModifierCachable (r : Request) (maxCacheTime : Int) : Bool :=
  if !decide ("@".toList <:+: r.query.toList) then true
  else
    match c.atModifierTimes r.query r.start r.end' with
    | none => false
    | some ts => ts.all fun t => !(t > r.end' || t > maxCacheTime)

/-- `isOffsetCachable`: no negative offset. -/
def isOffsetCachable (r : Request) : Bool :=
  if !decide ("offset".toList <:+: r.query.toList) then true
  else
    match c.offsets r.query with
    | none => false
    | some os => os.all fun o => !(o < 0)

/-- `shouldCacheResponse`, without a generation-number loader. -/
def shouldCacheResponse (req : Request) (r : PrometheusResponse H) (maxCacheTime : Int) : Bool :=
  (getHeaderValuesWithName r cacheControlHeader).all (· ≠ noStoreValue) &&
    c.isAtModifierCachable req maxCacheTime && c.isOffsetCachable req

end ResultsCache

/-- `toExtent`. -/
def toExtent (req : Request) (res : PrometheusResponse H) : Extent H := ⟨req.start, req.end', res⟩

/-- `DoRequests`: the requests answered in the order `order` of their arrival, or the first
error to arrive. -/
def doRequests (next : Request → Except String (PrometheusResponse H)) (reqs : List Request)
    (order : List Nat) : Except String (List (Request × PrometheusResponse H)) :=
  (order.filterMap (reqs[·]?)).mapM fun req => (req, ·) <$> next req

/-- The loop of `partition` over the extents from `start` on: the requests for what is missing
before each extent it uses, the parts it cuts out of them, and the `start` it ends at. -/
def partitionLoop (req : Request) :
    Int → List (Extent H) → List Request × List (PrometheusResponse H) × Int
  | start, [] => ([], [], start)
  | start, extent :: extents =>
    -- no overlap
    if extent.end' < start ∨ extent.start > req.end' then partitionLoop req start extents
    -- a tiny extent, for a request that is not tiny
    else if req.start ≠ req.end' ∧ req.end' - req.start > minCacheExtent ∧
        extent.end' - extent.start < minCacheExtent then partitionLoop req start extents
    else
      let rest := partitionLoop req extent.end' extents
      ((if start < extent.start then [req.withStartEnd start extent.start] else []) ++ rest.1,
        extract start req.end' extent.response :: rest.2.1, rest.2.2)

/-- `partition`: the requests for the parts of `req` the extents do not hold, and the parts
they hold. -/
def partition (req : Request) (extents : List (Extent H)) :
    List Request × List (PrometheusResponse H) :=
  let loop := partitionLoop req req.start extents
  let requests := if loop.2.2 < req.end' then loop.1 ++ [req.withStartEnd loop.2.2 req.end']
    else loop.1
  -- a request of one instant is asked for when nothing cached holds it
  let requests := if req.start = req.end' ∧ loop.2.1.isEmpty then requests ++ [req] else requests
  (requests, loop.2.1)

/-- The order `sort.Slice` puts extents in: by start, the longer first. -/
def extentLess (a b : Extent H) : Prop :=
  if a.start = b.start then a.end' > b.end' else a.start < b.start

instance : DecidableRel (extentLess (H := H)) := fun a b => by
  unfold extentLess; infer_instance

/-- `a` may stand before `b`: `b` is not less. -/
def extentLe (a b : Extent H) : Prop := ¬ extentLess b a

instance : DecidableRel (extentLe (H := H)) := fun a b =>
  inferInstanceAs (Decidable (¬ extentLess b a))

/-- The loop of `handleHit` over the sorted extents, `acc` the accumulator: an extent more than
a step after it starts a new one, an extent within it is dropped, and one that reaches further
is merged into it. `accumulator.End + r.GetStep()` is an int64 sum and wraps. -/
def mergeExtentsLoop (step : Int) (acc : Extent H) : List (Extent H) → List (Extent H)
  | [] => [acc]
  | e :: es =>
    if wrapInt64 (acc.end' + step) < e.start then acc :: mergeExtentsLoop step e es
    else if acc.end' ≥ e.end' then mergeExtentsLoop step acc es
    else mergeExtentsLoop step ⟨acc.start, e.end', mergeResponse [acc.response, e.response]⟩ es

namespace ResultsCache

variable (c : ResultsCache H)

/-- `handleMiss`: the handler's response, and its extent when it may be cached. -/
def handleMiss (r : Request) (maxCacheTime : Int) :
    Except String (PrometheusResponse H × List (Extent H)) := do
  let response ← c.next r
  if !c.shouldCacheResponse r response maxCacheTime then return (response, [])
  return (response, [toExtent r (responseWithoutHeaders response)])

/-- `handleHit`, the responses of `DoRequests` arriving in the order `order`. -/
def handleHit (r : Request) (extents : List (Extent H)) (maxCacheTime : Int) (order : List Nat) :
    Result (PrometheusResponse H × List (Extent H)) :=
  let parts := partition r extents
  -- nothing asked for below, nothing to write back
  if parts.1.isEmpty then .ok (mergeResponse parts.2, [])
  else
    match doRequests c.next parts.1 order with
    | .error e => .error e
    | .ok reqResps =>
      let responses := parts.2 ++ reqResps.map Prod.snd
      let added := (reqResps.filter fun rr => c.shouldCacheResponse r rr.2 maxCacheTime).map
        fun rr => toExtent rr.1 (responseWithoutHeaders rr.2)
      match (extents ++ added).insertionSort extentLe with
      | [] => .panic "index out of range"
      | e :: es => .ok (mergeResponse responses, mergeExtentsLoop r.step e es)

end ResultsCache

/-- `filterRecentExtents`: the extents cut at the last step not within `maxCacheFreshness` of
`now`. -/
def filterRecentExtents (req : Request) (maxCacheFreshness now : Int) (extents : List (Extent H)) :
    Result (List (Extent H)) :=
  if req.step = 0 then .panic "integer divide by zero"
  else
    let maxCacheTime := (now - maxCacheFreshness).tdiv req.step * req.step
    .ok (extents.map fun e =>
      if e.end' > maxCacheTime then ⟨e.start, maxCacheTime, extract e.start maxCacheTime e.response⟩
      else e)

/-- `resultsCache.get`: the extents filed under the key's hash, when they are the key's. -/
def get (hashKey : String → String) (cache : CacheStore H) (key : String) :
    Option (List (Extent H)) :=
  match cache.lookup (hashKey key) with
  | some resp => if resp.key = key then some resp.extents else none
  | none => none

/-- `resultsCache.put`. -/
def put (hashKey : String → String) (cache : CacheStore H) (key : String)
    (extents : List (Extent H)) : CacheStore H :=
  upsert cache (hashKey key) ⟨key, extents⟩

namespace ResultsCache

variable (c : ResultsCache H)

/-- `resultsCache.Do` at time `now`, on the store `cache`: the response and the store after. -/
def do' (cache : CacheStore H) (r : Request) (now : Int) (order : List Nat) :
    Result (PrometheusResponse H × CacheStore H) :=
  if !shouldCache r then (·, cache) <$> fromHandler (c.next r)
  else
    match generateCacheKey c.tenant r with
    | .error e => .error e
    | .panic m => .panic m
    | .ok key =>
      let maxCacheTime := now - c.maxCacheFreshness
      if r.start > maxCacheTime then (·, cache) <$> fromHandler (c.next r)
      else
        let served := match get c.hashKey cache key with
          | some cached => c.handleHit r cached maxCacheTime order
          | none => fromHandler (c.handleMiss r maxCacheTime)
        match served with
        | .error e => .error e
        | .panic m => .panic m
        | .ok (response, extents) =>
          if extents.isEmpty then .ok (response, cache)
          else (fun kept => (response, put c.hashKey cache key kept)) <$>
            filterRecentExtents r c.maxCacheFreshness now extents

end ResultsCache

/-! ## What `partition` asks for

The requests for the gaps and the parts of the cached extents together hold every instant of the
request: an extent is used from where the previous one ended, and the gap before it is asked
for. -/

section Partition

variable (req : Request)

/-- An instant `t` of a range asked of the handler. -/
def Asks (requests : List Request) (t : Int) : Prop :=
  ∃ q ∈ requests, q.start ≤ t ∧ t ≤ q.end'

/-- An instant `t` of an extent whose part, cut from at most `t`, is among the cached parts. -/
def Serves (extents : List (Extent H)) (cached : List (PrometheusResponse H)) (t : Int) : Prop :=
  ∃ e ∈ extents, e.start ≤ t ∧ t ≤ e.end' ∧ ∃ s ≤ t, extract s req.end' e.response ∈ cached

theorem partitionLoop_nil (start : Int) :
    partitionLoop req start ([] : List (Extent H)) = ([], [], start) := rfl

/-- One extent of the loop: skipped, or used, when it overlaps what is left of the request, with
the request for the gap before it, its part, and the loop from its end. -/
theorem partitionLoop_cons (start : Int) (e : Extent H) (es : List (Extent H)) :
    partitionLoop req start (e :: es) = partitionLoop req start es ∨
      (start ≤ e.end' ∧ e.start ≤ req.end' ∧ partitionLoop req start (e :: es) =
        ((if start < e.start then [req.withStartEnd start e.start] else []) ++
            (partitionLoop req e.end' es).1,
          extract start req.end' e.response :: (partitionLoop req e.end' es).2.1,
          (partitionLoop req e.end' es).2.2)) := by
  by_cases hover : e.end' < start ∨ e.start > req.end'
  · exact Or.inl (by rw [partitionLoop, if_pos hover])
  by_cases htiny : req.start ≠ req.end' ∧ req.end' - req.start > minCacheExtent ∧
      e.end' - e.start < minCacheExtent
  · exact Or.inl (by rw [partitionLoop, if_neg hover, if_pos htiny])
  have hused := hover
  rw [not_or, not_lt, not_lt] at hused
  exact Or.inr ⟨hused.1, hused.2, by rw [partitionLoop, if_neg hover, if_neg htiny]⟩

/-- Where the loop ends: at or after `start`, and at `start` when it cut nothing. -/
theorem partitionLoop_last : ∀ (start : Int) (es : List (Extent H)),
    start ≤ (partitionLoop req start es).2.2 ∧
      ((partitionLoop req start es).2.1 = [] → (partitionLoop req start es).2.2 = start)
  | start, [] => by simp [partitionLoop_nil]
  | start, e :: es => by
    rcases partitionLoop_cons req start e es with h | ⟨hs, -, h⟩ <;> rw [h]
    · exact partitionLoop_last start es
    · dsimp only
      have := (partitionLoop_last e.end' es).1
      exact ⟨by omega, fun h => by simp at h⟩

/-- The requests of the loop: the query over a range from `start` to the end of the request. -/
theorem partitionLoop_requests : ∀ (start : Int) (es : List (Extent H)),
    ∀ q ∈ (partitionLoop req start es).1,
      start ≤ q.start ∧ q.end' ≤ req.end' ∧ q = req.withStartEnd q.start q.end'
  | start, [] => by simp [partitionLoop_nil]
  | start, e :: es => by
    rcases partitionLoop_cons req start e es with h | ⟨hs, he, h⟩ <;> rw [h]
    · exact partitionLoop_requests start es
    · intro q hq
      rcases List.mem_append.mp hq with hq | hq
      · -- the gap before the extent
        split_ifs at hq
        · rw [List.mem_singleton.mp hq]
          exact ⟨le_refl _, he, rfl⟩
        · simp at hq
      · obtain ⟨h1, h2, h3⟩ := partitionLoop_requests e.end' es q hq
        exact ⟨by omega, h2, h3⟩

/-- Every instant from `start` to where the loop ends is asked for or served, once the loop has
cut a part. -/
theorem partitionLoop_covers : ∀ (start : Int) (es : List (Extent H)) (t : Int),
    start ≤ t → t ≤ (partitionLoop req start es).2.2 →
      (partitionLoop req start es).2.1 = [] ∨ Asks (partitionLoop req start es).1 t ∨
        Serves req es (partitionLoop req start es).2.1 t
  | start, [] => by simp [partitionLoop_nil]
  | start, e :: es => by
    intro t hst hlast
    rcases partitionLoop_cons req start e es with h | ⟨-, -, h⟩ <;> rw [h] at hlast ⊢
    · rcases partitionLoop_covers start es t hst hlast with h | h | ⟨e', he', h⟩
      · exact Or.inl h
      · exact Or.inr (Or.inl h)
      · exact Or.inr (Or.inr ⟨e', List.mem_cons_of_mem _ he', h⟩)
    · dsimp only at hlast ⊢
      refine Or.inr ?_
      -- before the extent, within it, or after it
      by_cases hbefore : t < e.start
      · refine Or.inl ⟨req.withStartEnd start e.start, ?_, hst, hbefore.le⟩
        rw [if_pos (lt_of_le_of_lt hst hbefore)]
        exact List.mem_append_left _ List.mem_cons_self
      · by_cases hafter : e.end' < t
        · rcases partitionLoop_covers e.end' es t hafter.le hlast with h | h | ⟨e', he', h⟩
          · have := ((partitionLoop_last req e.end' es).2 h)
            omega
          · obtain ⟨q, hq, h⟩ := h
            exact Or.inl ⟨q, List.mem_append_right _ hq, h⟩
          · obtain ⟨h1, h2, s, hs, hmem⟩ := h
            exact Or.inr ⟨e', List.mem_cons_of_mem _ he', h1, h2, s, hs, List.mem_cons_of_mem _ hmem⟩
        · exact Or.inr ⟨e, List.mem_cons_self, not_lt.mp hbefore, not_lt.mp hafter, start, hst,
            List.mem_cons_self⟩

/-- `partition` misses no instant of the request: each is asked of the handler or lies in a
cached extent whose part is served, and what it asks is the request's query over a part of
the request's range. -/
theorem partition_covers (extents : List (Extent H)) :
    (∀ q ∈ (partition req extents).1, req.start ≤ q.start ∧ q.end' ≤ req.end' ∧
        q = req.withStartEnd q.start q.end') ∧
      ∀ t, req.start ≤ t → t ≤ req.end' →
        Asks (partition req extents).1 t ∨ Serves req extents (partition req extents).2 t := by
  have hlast := partitionLoop_last req req.start extents
  have hloop := partitionLoop_requests req req.start extents
  have hcov := partitionLoop_covers req req.start extents
  unfold partition
  dsimp only
  generalize partitionLoop req req.start extents = loop at hlast hloop hcov
  obtain ⟨requests, cached, last⟩ := loop
  dsimp only at hlast hloop hcov ⊢
  constructor
  · intro q hq
    have hq' : q ∈ requests ∨ (last < req.end' ∧ q = req.withStartEnd last req.end') ∨ q = req := by
      split_ifs at hq with h1 h2 h2 <;> (try simp only [List.mem_append, List.mem_singleton] at hq) <;>
        tauto
    rcases hq' with hq | ⟨-, rfl⟩ | rfl
    · obtain ⟨h1, h2, h3⟩ := hloop q hq
      exact ⟨h1, h2, h3⟩
    · exact ⟨hlast.1, le_refl _, rfl⟩
    · exact ⟨le_refl _, le_refl _, rfl⟩
  · intro t hst hte
    have hsub : ∀ q, (q ∈ requests ∨ (last < req.end' ∧ q = req.withStartEnd last req.end') ∨
        (req.start = req.end' ∧ cached.isEmpty = true ∧ q = req)) →
        q ∈ (if req.start = req.end' ∧ cached.isEmpty = true then
          (if last < req.end' then requests ++ [req.withStartEnd last req.end'] else requests) ++ [req]
          else if last < req.end' then requests ++ [req.withStartEnd last req.end'] else requests) := by
      rintro q (hq | ⟨hl, rfl⟩ | ⟨h1, h2, rfl⟩) <;> split_ifs <;>
        (try simp only [List.mem_append, List.mem_singleton]) <;> tauto
    by_cases ht : t ≤ last
    · rcases hcov t hst ht with hnil | ⟨q, hq, hqt⟩ | hserve
      · -- nothing cached: the loop ended where it began
        have hl := hlast.2 hnil
        by_cases hrest : last < req.end'
        · exact Or.inl ⟨_, hsub _ (Or.inr (Or.inl ⟨hrest, rfl⟩)), by simp [Request.withStartEnd]; omega⟩
        · exact Or.inl ⟨req, hsub _ (Or.inr (Or.inr ⟨by omega, by simp [hnil], rfl⟩)), hst, hte⟩
      · exact Or.inl ⟨q, hsub q (Or.inl hq), hqt⟩
      · exact Or.inr hserve
    · exact Or.inl ⟨_, hsub _ (Or.inr (Or.inl ⟨by omega, rfl⟩)), by simp [Request.withStartEnd]; omega⟩

end Partition

/-- A handler that answers every request with no series, with no `@` modifier or offset parsed. -/
def emptyAnswers : ResultsCache Unit :=
  ⟨fun _ => .ok ⟨[], [], []⟩, "tenant", 0, id, fun _ _ _ => none, fun _ => none⟩

/-- Ten minutes of a query at a one-minute step, split by day. -/
def tenMinutes : Request :=
  ⟨0, 600000, 60000, "up", 86400000, 0, none, 0, "prometheus", 0, true, false⟩

/-! ## What `handleHit` writes back

The loop over the sorted extents writes extents more than a step apart, and on extents in order
of their starts every extent it reads lies within one it writes: the merge loses no cached
range. -/

section Merge

variable (step : Int)

/-- The first extent the loop writes starts where the accumulator starts and reaches at least
as far. -/
theorem mergeExtentsLoop_head : ∀ (acc : Extent H) (es : List (Extent H)),
    ∃ o rest, mergeExtentsLoop step acc es = o :: rest ∧ o.start = acc.start ∧ acc.end' ≤ o.end'
  | acc, [] => ⟨acc, [], rfl, rfl, le_refl _⟩
  | acc, e :: es => by
    unfold mergeExtentsLoop
    split_ifs with hgap hwithin
    · exact ⟨acc, _, rfl, rfl, le_refl _⟩
    · exact mergeExtentsLoop_head acc es
    · obtain ⟨o, rest, h, hs, he⟩ := mergeExtentsLoop_head ⟨acc.start, e.end', _⟩ es
      exact ⟨o, rest, h, hs, by dsimp only at he; omega⟩

/-- The extents the loop writes are more than a step apart, one after the other, the end plus the
step taken in int64. -/
theorem mergeExtentsLoop_apart : ∀ (acc : Extent H) (es : List (Extent H)),
    (mergeExtentsLoop step acc es).IsChain fun a b => wrapInt64 (a.end' + step) < b.start
  | acc, [] => .singleton acc
  | acc, e :: es => by
    unfold mergeExtentsLoop
    split_ifs with hgap hwithin
    · obtain ⟨o, rest, h, hs, -⟩ := mergeExtentsLoop_head step e es
      have hrest := mergeExtentsLoop_apart e es
      rw [h] at hrest ⊢
      exact List.isChain_cons_cons.mpr ⟨by rw [hs]; exact hgap, hrest⟩
    · exact mergeExtentsLoop_apart acc es
    · exact mergeExtentsLoop_apart _ es

/-- On extents in order of their starts, after the accumulator, every extent lies within one the
loop writes. -/
theorem mergeExtentsLoop_covers : ∀ (acc : Extent H) (es : List (Extent H)),
    (∀ e ∈ es, acc.start ≤ e.start) → es.Pairwise (fun a b => a.start ≤ b.start) →
    ∀ e ∈ acc :: es, ∃ o ∈ mergeExtentsLoop step acc es, o.start ≤ e.start ∧ e.end' ≤ o.end'
  | acc, [], _, _ => by
    intro e he
    rw [List.mem_singleton.mp he]
    exact ⟨acc, List.mem_singleton_self _, le_refl _, le_refl _⟩
  | acc, e :: es, hafter, hsorted => by
    rw [List.pairwise_cons] at hsorted
    have he := hafter e List.mem_cons_self
    have hfirst : ∀ acc' : Extent H, acc'.start = acc.start →
        ∃ o ∈ mergeExtentsLoop step acc' es, o.start = acc.start ∧ acc'.end' ≤ o.end' := by
      intro acc' hs
      obtain ⟨o, rest, h, hos, hoe⟩ := mergeExtentsLoop_head step acc' es
      exact ⟨o, by rw [h]; exact List.mem_cons_self, hos.trans hs, hoe⟩
    intro x hx
    unfold mergeExtentsLoop
    split_ifs with hgap hwithin
    · rcases List.mem_cons.mp hx with rfl | hx
      · exact ⟨x, List.mem_cons_self, le_refl _, le_refl _⟩
      · obtain ⟨o, ho, h⟩ := mergeExtentsLoop_covers e es hsorted.1 hsorted.2 x hx
        exact ⟨o, List.mem_cons_of_mem _ ho, h⟩
    · have hrest := mergeExtentsLoop_covers acc es
        (fun y hy => hafter y (List.mem_cons_of_mem _ hy)) hsorted.2
      rcases List.mem_cons.mp hx with rfl | hx
      · exact hrest x List.mem_cons_self
      · rcases List.mem_cons.mp hx with rfl | hx
        · obtain ⟨o, ho, hos, hoe⟩ := hfirst acc rfl
          exact ⟨o, ho, by omega, by omega⟩
        · exact hrest x (List.mem_cons_of_mem _ hx)
    · let merged : Extent H := ⟨acc.start, e.end', mergeResponse [acc.response, e.response]⟩
      have hrest := mergeExtentsLoop_covers merged es
        (fun y hy => hafter y (List.mem_cons_of_mem _ hy)) hsorted.2
      obtain ⟨o, ho, hos, hoe⟩ := hfirst merged rfl
      rcases List.mem_cons.mp hx with rfl | hx
      · exact ⟨o, ho, by omega, by dsimp only [merged] at hoe; omega⟩
      · rcases List.mem_cons.mp hx with rfl | hx
        · exact ⟨o, ho, by omega, hoe⟩
        · exact hrest x (List.mem_cons_of_mem _ hx)

end Merge

instance : Std.Total (extentLe (H := H)) where
  total a b := by
    unfold extentLe extentLess
    split_ifs <;> omega

instance : IsTrans (Extent H) extentLe where
  trans a b c hab hbc := by
    unfold extentLe extentLess at *
    split_ifs at * <;> omega

theorem start_le_of_extentLe {a b : Extent H} (h : extentLe a b) : a.start ≤ b.start := by
  unfold extentLe extentLess at h
  split_ifs at h <;> omega

namespace ResultsCache

variable (c : ResultsCache H)

end ResultsCache

/-- Every key of the store holds some extents: `Do` stores no empty list. -/
def StoreInv (store : CacheStore H) : Prop := ∀ p ∈ store, p.2.extents ≠ []

theorem mem_upsert_imp {β : Type} {m : List (String × β)} {k : String} {v : β}
    {p : String × β} (hp : p ∈ upsert m k v) : p = (k, v) ∨ p ∈ m := by
  induction m with
  | nil => simpa [upsert] using hp
  | cons q rest ih =>
    unfold upsert at hp
    split_ifs at hp with hk
    · rcases List.mem_cons.mp hp with rfl | h
      · exact Or.inl rfl
      · exact Or.inr (List.mem_cons_of_mem _ h)
    · rcases List.mem_cons.mp hp with rfl | h
      · exact Or.inr List.mem_cons_self
      · rcases ih h with h | h
        · exact Or.inl h
        · exact Or.inr (List.mem_cons_of_mem _ h)

section Store

variable {hashKey : String → String} {store : CacheStore H}

theorem get_ne_nil (hs : StoreInv store) {key : String} {extents : List (Extent H)}
    (h : get hashKey store key = some extents) : extents ≠ [] := by
  unfold get at h
  cases hl : store.lookup (hashKey key) with
  | none => simp [hl] at h
  | some resp =>
    simp only [hl] at h
    split_ifs at h
    rw [Option.some.injEq] at h
    subst h
    exact hs _ (mem_of_lookup_eq_some hl)

theorem StoreInv.put (hs : StoreInv store) (key : String) {extents : List (Extent H)}
    (hne : extents ≠ []) : StoreInv (put hashKey store key extents) := by
  intro p hp
  rcases mem_upsert_imp hp with rfl | hp
  · exact hne
  · exact hs p hp

end Store

theorem filterRecentExtents_ok {req : Request} (hstep : req.step ≠ 0) (maxCacheFreshness now : Int)
    (extents : List (Extent H)) : ∃ kept, filterRecentExtents req maxCacheFreshness now extents =
      .ok kept ∧ kept.length = extents.length := by
  unfold filterRecentExtents
  rw [if_neg hstep]
  exact ⟨_, rfl, List.length_map _⟩

theorem generateCacheKey_ok {r : Request} (h : r.splitInterval ≠ 0) (userID : String) :
    ∃ key, generateCacheKey userID r = .ok key := by
  unfold generateCacheKey
  rw [if_neg h]
  exact ⟨_, rfl⟩

namespace ResultsCache

variable (c : ResultsCache H)

/-- `handleHit` on cached extents takes the first of the sorted extents: there is one. -/
theorem handleHit_ne_panic (r : Request) {extents : List (Extent H)} (hne : extents ≠ [])
    (maxCacheTime : Int) (order : List Nat) (m : String) :
    c.handleHit r extents maxCacheTime order ≠ .panic m := by
  unfold handleHit
  dsimp only
  split_ifs
  · simp
  · split
    · simp
    · rename_i reqResps _
      -- sorting keeps the extents, so the sorted list is not empty
      have hlen := (List.perm_insertionSort extentLe
        (extents ++ (reqResps.filter fun rr => c.shouldCacheResponse r rr.2 maxCacheTime).map
          fun rr => toExtent rr.1 (responseWithoutHeaders rr.2))).length_eq
      split
      · rename_i hsort
        rw [hsort, List.length_nil, List.length_append] at hlen
        have : extents.length ≠ 0 := by simpa using hne
        omega
      · simp

theorem fromHandler_ne_panic {α β : Type} (f : α → β) (x : Except String α) (m : String) :
    f <$> fromHandler x ≠ .panic m := by
  cases x <;> simp [fromHandler, Functor.map]

/-- What a call that returns leaves of the store: the store, or the store with the extents it
computed, some at least, put under a key once `filterRecentExtents` has cut them. -/
theorem do'_ok {cache : CacheStore H} {r : Request} {now : Int} {order : List Nat}
    {resp : PrometheusResponse H} {store' : CacheStore H}
    (h : c.do' cache r now order = .ok (resp, store')) :
    store' = cache ∨ ∃ key extents kept, extents ≠ [] ∧
      filterRecentExtents r c.maxCacheFreshness now extents = .ok kept ∧
      store' = put c.hashKey cache key kept := by
  unfold do' at h
  split_ifs at h with hsc
  · cases hn : c.next r <;> simp [hn, fromHandler, Functor.map] at h
    exact Or.inl h.2.symm
  · split at h
    · simp at h
    · simp at h
    · dsimp only at h
      split_ifs at h with hfresh
      · cases hn : c.next r <;> simp [hn, fromHandler, Functor.map] at h
        exact Or.inl h.2.symm
      · split at h
        · simp at h
        · simp at h
        · rename_i response extents _
          split_ifs at h with hemp
          · simp only [Result.ok.injEq, Prod.mk.injEq] at h
            exact Or.inl h.2.symm
          · cases hf : filterRecentExtents r c.maxCacheFreshness now extents with
            | ok kept =>
              rw [hf] at h
              simp only [Functor.map, Function.comp_apply, Result.ok.injEq, Prod.mk.injEq] at h
              exact Or.inr ⟨_, extents, kept, fun hnil => hemp (by simp [hnil]), hf, h.2.symm⟩
            | error e => simp [hf, Functor.map] at h
            | panic m => simp [hf, Functor.map] at h

/-- `filterRecentExtents` keeps every extent, ending at the last step before `now` less the
freshness at the latest. -/
theorem filterRecentExtents_spec {req : Request} {maxCacheFreshness now : Int}
    {extents kept : List (Extent H)}
    (h : filterRecentExtents req maxCacheFreshness now extents = .ok kept) :
    kept.length = extents.length ∧
      ∀ e ∈ kept, e.end' ≤ (now - maxCacheFreshness).tdiv req.step * req.step := by
  unfold filterRecentExtents at h
  split_ifs at h
  simp only [Result.ok.injEq] at h
  subst h
  refine ⟨List.length_map _, fun e he => ?_⟩
  obtain ⟨e', -, rfl⟩ := List.mem_map.mp he
  split_ifs with hlate
  · exact le_refl _
  · exact not_lt.mp hlate

/-- What a call that returns leaves of the store: the store, or the store with non-empty
extents put under a key. -/
theorem do'_store {cache : CacheStore H} {r : Request} {now : Int} {order : List Nat}
    {resp : PrometheusResponse H} {store' : CacheStore H}
    (h : c.do' cache r now order = .ok (resp, store')) :
    store' = cache ∨ ∃ key kept, kept ≠ [] ∧ store' = put c.hashKey cache key kept := by
  rcases c.do'_ok h with h | ⟨key, extents, kept, hne, hf, h⟩
  · exact Or.inl h
  · refine Or.inr ⟨key, kept, fun hnil => hne ?_, h⟩
    have hlen := (filterRecentExtents_spec hf).1
    rw [hnil, List.length_nil] at hlen
    exact List.length_eq_zero_iff.mp hlen.symm

/-- A call with a step and a split interval does not panic on a store that holds extents under
each key: the panics of `Do` are the divisions by them and `extents[0]` in `handleHit`. -/
theorem do'_ne_panic {cache : CacheStore H} (hs : StoreInv cache) {r : Request}
    (hstep : r.step ≠ 0) (hsplit : r.splitInterval ≠ 0) (now : Int) (order : List Nat)
    (m : String) : c.do' cache r now order ≠ .panic m := by
  obtain ⟨key, hkey⟩ := generateCacheKey_ok hsplit c.tenant
  unfold do'
  split_ifs with hsc
  · exact fromHandler_ne_panic _ _ m
  · simp only [hkey]
    split_ifs with hfresh
    · exact fromHandler_ne_panic _ _ m
    · have hserved : ∀ m', (match get c.hashKey cache key with
          | some cached => c.handleHit r cached (now - c.maxCacheFreshness) order
          | none => fromHandler (c.handleMiss r (now - c.maxCacheFreshness))) ≠ .panic m' := by
        intro m'
        cases hg : get c.hashKey cache key with
        | none => cases c.handleMiss r (now - c.maxCacheFreshness) <;> simp [fromHandler]
        | some cached => exact c.handleHit_ne_panic r (get_ne_nil hs hg) _ order m'
      split
      · simp
      · rename_i m' hpanic
        exact absurd hpanic (hserved m')
      · rename_i response extents _
        split_ifs
        · simp
        · obtain ⟨kept, hk, -⟩ := filterRecentExtents_ok hstep c.maxCacheFreshness now extents
          simp [hk, Functor.map]

/-- Calls of `Do` one after another, each on the store the one before left, a failed call
leaving it as it was: what each returns, up to the first panic. -/
def serveAll : CacheStore H → List (Request × Int × List Nat) → List (Result (PrometheusResponse H))
  | _, [] => []
  | cache, (r, now, order) :: calls =>
    match c.do' cache r now order with
    | .ok (response, cache') => .ok response :: serveAll cache' calls
    | .error e => .error e :: serveAll cache calls
    | .panic m => [.panic m]

/-- No run of the results cache panics: from a store holding extents under each key, requests
with a step and a split interval are answered or fail, whatever the other calls stored. -/
theorem serveAll_ne_panic : ∀ (cache : CacheStore H) (calls : List (Request × Int × List Nat)),
    StoreInv cache → (∀ call ∈ calls, call.1.step ≠ 0 ∧ call.1.splitInterval ≠ 0) →
    ∀ x ∈ c.serveAll cache calls, ∀ m, x ≠ .panic m
  | _, [], _, _ => by simp [serveAll]
  | cache, (r, now, order) :: calls, hs, hcalls => by
    obtain ⟨⟨hstep, hsplit⟩, hrest⟩ := List.forall_mem_cons.mp hcalls
    unfold serveAll
    cases hdo : c.do' cache r now order with
    | ok p =>
      obtain ⟨response, cache'⟩ := p
      have hs' : StoreInv cache' := by
        rcases c.do'_store hdo with rfl | ⟨key, kept, hne, rfl⟩
        · exact hs
        · exact hs.put key hne
      exact List.forall_mem_cons.mpr ⟨by simp, serveAll_ne_panic cache' calls hs' hrest⟩
    | error e => exact List.forall_mem_cons.mpr ⟨by simp, serveAll_ne_panic cache calls hs hrest⟩
    | panic m' => exact absurd hdo (c.do'_ne_panic hs hstep hsplit now order m')

end ResultsCache

/-- The same request twice: the first misses and stores its extent, the second is served from
it. -/
theorem serveAll_ne_panic_repeated :
    StoreInv ([] : CacheStore Unit) ∧
      (∀ call ∈ [(tenMinutes, (1000000 : Int), [0]), (tenMinutes, 1000000, [0])],
        call.1.step ≠ 0 ∧ call.1.splitInterval ≠ 0) ∧
      ∀ x ∈ emptyAnswers.serveAll [] [(tenMinutes, 1000000, [0]), (tenMinutes, 1000000, [0])],
        ∀ m, x ≠ .panic m :=
  ⟨fun _ hp => absurd hp List.not_mem_nil, by decide,
    ResultsCache.serveAll_ne_panic emptyAnswers [] _ (fun _ hp => absurd hp List.not_mem_nil)
      (by decide)⟩

example : emptyAnswers.serveAll [] [(tenMinutes, 1000000, [0]), (tenMinutes, 1000000, [0])] =
    [.ok ⟨[], [], []⟩, .ok ⟨[], [], []⟩] := by decide

end Thanos.QueryRange
