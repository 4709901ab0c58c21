import Mathlib.Data.List.Basic
import Mathlib.Algebra.Order.Ring.Int

/-! # Subrange caching of `GetRange`

`CachingBucket.GetRange` of `pkg/store/cache` serves a byte range of an object
from the cache in aligned subranges of `SubrangeSize` bytes: it reads the
object's size through the attributes cache, looks up every subrange the range
touches, fetches the missing ones from the bucket (merged into at most
`MaxSubRequests` requests), stores what it fetched, and reads the range out of
the subranges.

The bucket under the cache is a parameter: its `Attributes` size and its
`GetRange`. The cache holds decoded values: a size under an attributes key,
bytes under a subrange key. The goroutines fetching missing ranges run one after
the other, in the order of the ranges. Go's `/` and `%` on `int64` truncate:
they are `Int.tdiv` and `Int.tmod`. -/

namespace Thanos.Store.Cache

/-- A Go call that returns a value, returns an error, or panics. -/
inductive Result (α : Type) where
  | ok (a : α)
  | error (msg : String)
  | panic (msg : String)
  deriving DecidableEq, Repr

instance : Monad Result where
  pure := .ok
  bind r f := match r with
    | .ok a => f a
    | .error e => .error e
    | .panic m => .panic m

def subrangeVerb : String := "subrange"
def attributesVerb : String := "attrs"

/-- `cachekey.BucketCacheKey.String` for the verbs `GetRange` uses. -/
def bucketCacheKey (verb name : String) (start e : Int) : String :=
  if start = 0 ∧ e = 0 then verb ++ ":" ++ name
  else ":".intercalate [verb, name, toString start, toString e]

structure GetRangeConfig where
  subrangeSize : Int
  maxSubRequests : Int
  deriving DecidableEq, Repr

structure Bucket where
  attributes : Except String Int
  getRange : Int → Int → Except String (List UInt8)

structure CacheContents where
  attributes : String → Option Int
  subranges : String → Option (List UInt8)

/-- What one call stores into the cache. -/
inductive Stored where
  | attributes (key : String) (size : Int)
  | subrange (key : String) (data : List UInt8)
  deriving DecidableEq, Repr

/-- `cachedAttributes`: the cached size, or the bucket's, which is then stored. -/
def cachedAttributes (b : Bucket) (c : CacheContents) (name : String) :
    Except String (Int × List Stored) :=
  let key := bucketCacheKey attributesVerb name 0 0
  match c.attributes key with
  | some size => .ok (size, [])
  | none =>
    match b.attributes with
    | .error e => .error e
    | .ok size => .ok (size, [.attributes key size])

structure Rng where
  start : Int
  stop : Int
  deriving DecidableEq, Repr

def mergeRangesGo (limit : Int) (last : Rng) : List Rng → List Rng
  | [] => [last]
  | r :: rs =>
    if r.start - last.stop ≤ limit then mergeRangesGo limit { last with stop := r.stop } rs
    else last :: mergeRangesGo limit r rs

/-- `mergeRanges`: a range closer than `limit` to the one before is merged into it. -/
def mergeRanges (input : List Rng) (limit : Int) : List Rng :=
  match input with
  | [] => []
  | r :: rs => mergeRangesGo limit r rs

/-- The loop that doubles the merge limit until at most `maxSubRequests` ranges are
left, for at most `fuel` rounds. -/
def mergeLoop (maxSubRequests : Int) : Nat → Int → List Rng → List Rng
  | 0, _, missing => missing
  | fuel + 1, limit, missing =>
    if maxSubRequests > 0 ∧ missing.length > maxSubRequests then
      mergeLoop maxSubRequests fuel (limit * 2) (mergeRanges missing limit)
    else missing

/-- The offsets `for off := start; off < stop; off += size` visits, for `size > 0`. -/
def loopOffsets (start stop size : Int) : List Int :=
  (List.range ((stop - start + size - 1) / size).toNat).map fun k => start + k * size

/-- The subranges known so far (the map `hits`), and the cache stores made. -/
structure Hits where
  hits : List (String × List UInt8)
  stored : List Stored
  deriving DecidableEq, Repr

def Hits.get (h : Hits) (key : String) : Option (List UInt8) :=
  (h.hits.find? (·.1 == key)).map Prod.snd

/-- The loop of one fetching goroutine over the subranges of its range `m`: each
subrange not known yet goes into `hits` and into the cache. -/
def storeSubranges (cacheKeys : Int → Option String) (buf : List UInt8) (m : Rng)
    (subrangeSize lastSubrangeOffset lastSubrangeLength : Int) :
    List Int → Hits → Result Hits
  | [], h => .ok h
  | off :: offs, h =>
    match cacheKeys off with
    | none =>
      let a := m.start
      let e := m.stop
      .error s!"fetching range [{a}, {e}]: caching key for offset {off} not found"
    | some key =>
      let len := if off = lastSubrangeOffset then lastSubrangeLength else subrangeSize
      if off - m.start + len > buf.length then .panic "runtime error: slice bounds out of range"
      else
        let subrangeData := (buf.drop (off - m.start).toNat).take len.toNat
        let h := if (h.get key).isSome then h
          else { hits := h.hits ++ [(key, subrangeData)],
                 stored := h.stored ++ [.subrange key subrangeData] }
        storeSubranges cacheKeys buf m subrangeSize lastSubrangeOffset lastSubrangeLength offs h

/-- `io.ReadFull` into a fresh buffer of `n` bytes. -/
def readFull (r : List UInt8) (n : Int) : Result (List UInt8) :=
  if n < 0 then .panic "runtime error: makeslice: len out of range"
  else if r.length < n then .error (if r = [] then "EOF" else "unexpected EOF")
  else .ok (r.take n.toNat)

/-- One goroutine of `fetchMissingSubranges`, fetching the range `m`. -/
def fetchRange (b : Bucket) (cacheKeys : Int → Option String) (cfg : GetRangeConfig)
    (lastSubrangeOffset lastSubrangeLength : Int) (h : Hits) (m : Rng) : Result Hits :=
  let a := m.start
  let e := m.stop
  match b.getRange m.start (m.stop - m.start) with
  | .error err => .error s!"fetching range [{a}, {e}]: {err}"
  | .ok r =>
    let bufSize := if lastSubrangeOffset ≥ m.stop then m.stop - m.start
      else (m.stop - m.start) - cfg.subrangeSize + lastSubrangeLength
    match readFull r bufSize with
    | .error err => .error s!"fetching range [{a}, {e}]: {err}"
    | .panic msg => .panic msg
    | .ok buf =>
      storeSubranges cacheKeys buf m cfg.subrangeSize lastSubrangeOffset lastSubrangeLength
        (loopOffsets m.start m.stop cfg.subrangeSize) h

/-- `fetchMissingSubranges`. -/
def fetchMissingSubranges (b : Bucket) (startRange endRange : Int)
    (cacheKeys : Int → Option String) (h : Hits) (lastSubrangeOffset lastSubrangeLength : Int)
    (cfg : GetRangeConfig) : Result Hits :=
  let offs := loopOffsets startRange endRange cfg.subrangeSize
  let missing := (offs.filter fun off => ((cacheKeys off).bind h.get).isNone).map fun off =>
    ({ start := off, stop := off + cfg.subrangeSize } : Rng)
  -- the doubling loop ends once one range is left, within `offs.length` rounds
  let missing := mergeLoop cfg.maxSubRequests offs.length cfg.subrangeSize (mergeRanges missing 0)
  missing.foldlM (fetchRange b cacheKeys cfg lastSubrangeOffset lastSubrangeLength) h

structure SubrangesReader where
  subrangeSize : Int
  offsetsKeys : Int → Option String
  subranges : Hits
  readOffset : Int
  remaining : Int

/-- `subrangesReader.subrangeAt`. -/
def SubrangesReader.subrangeAt (c : SubrangesReader) (offset : Int) : Except String (List UInt8) :=
  match (c.offsetsKeys offset).bind c.subranges.get with
  | none => .error s!"subrange for offset {offset} not found"
  | some b => .ok b

/-- `subrangesReader.Read` into a buffer long enough for what it copies: `none`
is `io.EOF`. -/
def SubrangesReader.read (c : SubrangesReader) :
    Except String (Option (List UInt8 × SubrangesReader)) :=
  if c.remaining ≤ 0 then .ok none
  else
    let currentSubrangeOffset := c.readOffset.tdiv c.subrangeSize * c.subrangeSize
    let readOffset := c.readOffset
    match c.subrangeAt currentSubrangeOffset with
    | .error err => .error s!"read position: {readOffset}: {err}"
    | .ok currentSubrange =>
      let offsetInSubrange := c.readOffset - currentSubrangeOffset
      let toCopy := currentSubrange.length - offsetInSubrange
      if toCopy ≤ 0 then
        let n := currentSubrange.length
        .error s!"no more data left in subrange at position {currentSubrangeOffset}, subrange length {n}, reading position {readOffset}"
      else
        let toCopy := min toCopy c.remaining
        .ok (some ((currentSubrange.drop offsetInSubrange.toNat).take toCopy.toNat,
          { c with readOffset := c.readOffset + toCopy, remaining := c.remaining - toCopy }))

/-- `io.ReadAll` of the reader, for at most `fuel` calls of `Read`. -/
def SubrangesReader.readAll : Nat → SubrangesReader → Except String (List UInt8)
  | 0, _ => .ok []
  | fuel + 1, c =>
    match c.read with
    | .error err => .error err
    | .ok none => .ok []
    | .ok (some (chunk, c)) =>
      match readAll fuel c with
      | .error err => .error err
      | .ok rest => .ok (chunk ++ rest)

/-- `cachedGetRange`: all the bytes of the returned reader, and the cache stores. -/
def cachedGetRange (b : Bucket) (c : CacheContents) (name : String) (offset length : Int)
    (cfg : GetRangeConfig) : Result (List UInt8 × List Stored) :=
  match cachedAttributes b c name with
  | .error err => .error s!"failed to get object attributes: {name}: {err}"
  | .ok (size, storedAttrs) =>
    if cfg.subrangeSize = 0 then .panic "runtime error: integer divide by zero"
    else
      let length := if offset + length > size then size - offset else length
      let startRange := offset.tdiv cfg.subrangeSize * cfg.subrangeSize
      let endRange := (offset + length).tdiv cfg.subrangeSize * cfg.subrangeSize +
        if (offset + length).tmod cfg.subrangeSize > 0 then cfg.subrangeSize else 0
      let lastSubrangeOffset :=
        if endRange > size then size.tdiv cfg.subrangeSize * cfg.subrangeSize
        else endRange - cfg.subrangeSize
      let lastSubrangeLength := if endRange > size then size - lastSubrangeOffset
        else cfg.subrangeSize
      let numSubranges := (endRange - startRange).tdiv cfg.subrangeSize
      -- make([]string, 0, numSubranges)
      if numSubranges < 0 then .panic "runtime error: makeslice: cap out of range"
      else
        let offs := loopOffsets startRange endRange cfg.subrangeSize
        let keyOf := fun off =>
          bucketCacheKey subrangeVerb name off (min (off + cfg.subrangeSize) size)
        let offsetKeys := fun off => if off ∈ offs then some (keyOf off) else none
        let hits : Hits :=
          { hits := offs.filterMap fun off => (c.subranges (keyOf off)).map (keyOf off, ·),
            stored := storedAttrs }
        let fetched := if hits.hits.length < offs.length then
            fetchMissingSubranges b startRange endRange offsetKeys hits lastSubrangeOffset
              lastSubrangeLength cfg
          else .ok hits
        match fetched with
        | .error err => .error err
        | .panic msg => .panic msg
        | .ok h =>
          let reader : SubrangesReader := ⟨cfg.subrangeSize, offsetKeys, h, offset, length⟩
          match reader.readAll (length.toNat + 1) with
          | .error err => .error err
          | .ok bytes => .ok (bytes, h.stored)

/-- `CachingBucket.GetRange`; `cfg` is what `FindGetRangeConfig` finds for the name. -/
def getRange (b : Bucket) (c : CacheContents) (cfg : Option GetRangeConfig) (name : String)
    (off length : Int) : Result (List UInt8 × List Stored) :=
  let direct : Result (List UInt8 × List Stored) :=
    match b.getRange off length with
    | .ok bytes => .ok (bytes, [])
    | .error err => .error err
  if off < 0 ∨ length ≤ 0 then direct
  else
    match cfg with
    | none => direct
    | some cfg => cachedGetRange b c name off length cfg

/-- The bucket holding one object `obj` under every name. -/
def objectBucket (obj : List UInt8) : Bucket where
  attributes := .ok obj.length
  getRange off length := .ok ((obj.drop off.toNat).take length.toNat)

/-- A cache that holds nothing. -/
def emptyCache : CacheContents := ⟨fun _ => none, fun _ => none⟩

/-! ## Offsets past the end of the object -/

/-- The subrange-aligned end of the first `n` bytes, as `cachedGetRange` computes
it, is `n` rounded up to a multiple of the subrange size. -/
theorem alignedEnd_eq {n S : Int} (hn : 0 ≤ n) (hS : 0 < S) :
    n.tdiv S * S + (if n.tmod S > 0 then S else 0) = (n + S - 1) / S * S := by
  rw [Int.tdiv_eq_ediv_of_nonneg hn, Int.tmod_eq_emod_of_nonneg hn]
  have hr := Int.emod_nonneg n hS.ne'
  have hr' := Int.emod_lt_of_pos n hS
  have hn' := Int.mul_ediv_add_emod n S
  split_ifs with hpos
  · have hq : (n + S - 1) / S = n / S + 1 :=
      ((Int.ediv_emod_unique (r := n % S - 1) hS).mpr ⟨by rw [Int.mul_add]; omega, by omega, by omega⟩).1
    rw [hq, Int.add_mul, Int.one_mul]
  · have hq : (n + S - 1) / S = n / S :=
      ((Int.ediv_emod_unique (r := S - 1) hS).mpr ⟨by omega, by omega, by omega⟩).1
    rw [hq, Int.add_zero]

theorem le_alignedEnd (n : Int) {S : Int} (hS : 0 < S) : n ≤ (n + S - 1) / S * S := by
  have h := Int.lt_ediv_add_one_mul_self (n + S - 1) hS
  rw [Int.add_mul, Int.one_mul] at h
  omega

/-- A request that starts a whole subrange or more past the aligned end of the
object panics: the clamped length `size - off` is negative, `endRange` falls below
`startRange`, and the capacity of the key slice is negative. -/
theorem getRange_panics_past_end (b : Bucket) (c : CacheContents) (cfg : GetRangeConfig)
    (name : String) (off length size : Int) (st : List Stored)
    (hS : 0 < cfg.subrangeSize) (hoff : 0 ≤ off) (hlen : 0 < length) (hsize : 0 ≤ size)
    (hattr : cachedAttributes b c name = .ok (size, st))
    (hfar : (size + cfg.subrangeSize - 1) / cfg.subrangeSize * cfg.subrangeSize +
      cfg.subrangeSize ≤ off) :
    getRange b c (some cfg) name off length = .panic "runtime error: makeslice: cap out of range" := by
  have hend := alignedEnd_eq hsize hS
  have hle := le_alignedEnd size hS
  have hclamp : off + length > size := by omega
  have hstart : off.tdiv cfg.subrangeSize = off / cfg.subrangeSize := Int.tdiv_eq_ediv_of_nonneg hoff
  have hnum : ((size + cfg.subrangeSize - 1) / cfg.subrangeSize * cfg.subrangeSize -
      off / cfg.subrangeSize * cfg.subrangeSize).tdiv cfg.subrangeSize < 0 := by
    have hq : (size + cfg.subrangeSize - 1) / cfg.subrangeSize + 1 ≤ off / cfg.subrangeSize :=
      (Int.le_ediv_iff_mul_le hS).mpr (by rw [Int.add_mul, Int.one_mul]; exact hfar)
    rw [← Int.sub_mul, Int.mul_tdiv_cancel _ hS.ne']
    omega
  simp only [getRange, cachedGetRange, hattr]
  simp [hS.ne', hclamp, hend, hstart, hnum, show ¬ (off < 0 ∨ length ≤ 0) by omega]

/-- A 10-byte object, subranges of 10 bytes, and one byte asked for at offset 20. -/
theorem getRange_offset_past_end_panics :
    getRange (objectBucket (List.replicate 10 0)) emptyCache (some ⟨10, 0⟩) "o" 20 1 =
      .panic "runtime error: makeslice: cap out of range" := by
  decide +kernel

end Thanos.Store.Cache
