import Thanos.Store.LoadSeries
import Thanos.Store.FetchPostings
import Thanos.Store.StorePB
import Thanos.Downsample.AggrBytes

/-! # Coalesced reads of chunks

`bucketChunkReader.addLoad` files each requested chunk under its segment file, by the
sequence number in the upper half of its reference, with its offset in the lower half and
the place `res[seriesEntry].chks[chunk]` it is to be saved to. `load` sorts each segment's
requests by offset, coalesces them with the partitioner, each range `estimatedMaxChunkSize`
bytes from its offset, and `loadChunks` streams each part: it skips to the next chunk,
reads at most `estimatedMaxChunkSize` bytes and at most up to the next chunk into its
buffer, reads the chunk's length, and hands the chunk to `populateChunk`, or fetches a
chunk longer than what it read once more with `readChunkRange`. `populateChunk` saves a
raw chunk's bytes, and the requested sub-chunks of a downsampled one.

The segment files are the bucket's objects, one `Bucket` each. The goroutines of the
parts run one after the other, segment by segment and part by part, and the first error
ends the load; the context is never cancelled and the bytes limiter is unlimited. Buffers
from the chunk pool are new ones, of zero bytes, and `save` copies into a slab that
never runs out. `sort.Slice` is a parameter. -/

namespace Thanos.Store

open GoBinary Cache RangeTiling Downsample.AggrBytes

/-- `storepb.Aggr`. -/
inductive Aggr where
  | raw
  | count
  | sum
  | min
  | max
  | counter
  deriving DecidableEq, Repr

/-- `loadIdx`: a chunk's offset in its segment file, a `uint32`, and where it is saved. -/
structure LoadIdx where
  offset : Nat
  seriesEntry : Nat
  chunk : Nat
  deriving DecidableEq, Repr

instance : Inhabited LoadIdx := ⟨⟨0, 0, 0⟩⟩

/-- `bucketChunkReader.addLoad` of the `chunks.ChunkRef` `id`. -/
def addLoad (toLoad : List (List LoadIdx)) (id seriesEntry chunk : Nat) :
    Except String (List (List LoadIdx)) :=
  let seq := id / 2 ^ 32
  let off := id % 2 ^ 32
  if toLoad.length ≤ seq then .error s!"reference sequence {seq} out of range"
  else .ok (toLoad.modify seq (· ++ [⟨off, seriesEntry, chunk⟩]))

/-- The loop of the series client over the chunks it asks for: `addLoad` of each
`(id, seriesEntry, chunk)` in turn. -/
def addLoads (toLoad : List (List LoadIdx)) : List (Nat × Nat × Nat) →
    Except String (List (List LoadIdx))
  | [] => .ok toLoad
  | (id, seriesEntry, chunk) :: reqs =>
    match addLoad toLoad id seriesEntry chunk with
    | .error err => .error err
    | .ok toLoad => addLoads toLoad reqs

/-! ## `populateChunk` -/

/-- `chunkToStoreEncoding`: `EncXOR`, `EncHistogram` and `EncFloatHistogram` to their
`storepb.Chunk_Encoding`. -/
def chunkToStoreEncoding (e : UInt8) : Result Nat :=
  if e = 1 then .ok 0
  else if e = 2 then .ok 1
  else if e = 3 then .ok 2
  else .panic "unknown chunk encoding"

/-- `hashChunk`. -/
def hashChunk (b : List UInt8) (doHash : Bool) : UInt64 :=
  if doHash then XXHash.sum64 b else 0

/-- `downsample.AggrType.String`. -/
def aggrTypeString : Downsample.AggrType → String
  | .count => "count"
  | .sum => "sum"
  | .min => "min"
  | .max => "max"
  | .counter => "counter"

/-- One case of the loop of `populateChunk` over the aggregates: the sub-chunk of `t` that
`AggrChunk.Get` finds, saved. -/
def aggrChunkOf (ac : Downsample.AggrBytes.AggrChunk) (t : Downsample.AggrType)
    (calculateChecksum : Bool) : Result Chunk :=
  match ac.get t with
  | none => .panic "index out of range"
  | some (.error _) => .error s!"aggregate {aggrTypeString t} does not exist"
  | some (.ok x) =>
    (fun type => ⟨type, x.bytes, hashChunk x.bytes calculateChecksum⟩) <$>
      chunkToStoreEncoding x.encoding

/-- The loop of `populateChunk` over the requested aggregates of a downsampled chunk:
`Aggr_RAW` has no case. -/
def populateAggr (ac : Downsample.AggrBytes.AggrChunk) (calculateChecksum : Bool)
    (out : AggrChunk) : Aggr → Result AggrChunk
  | .raw => .ok out
  | .count => (fun c => { out with count := some c }) <$> aggrChunkOf ac .count calculateChecksum
  | .sum => (fun c => { out with sum := some c }) <$> aggrChunkOf ac .sum calculateChecksum
  | .min => (fun c => { out with min := some c }) <$> aggrChunkOf ac .min calculateChecksum
  | .max => (fun c => { out with max := some c }) <$> aggrChunkOf ac .max calculateChecksum
  | .counter =>
    (fun c => { out with counter := some c }) <$> aggrChunkOf ac .counter calculateChecksum

/-- `populateChunk` of the `rawChunk` `c` (its encoding byte, then its bytes) into `out`. -/
def populateChunk (out : AggrChunk) (c : List UInt8) (aggrs : List Aggr)
    (calculateChecksum : Bool) : Result AggrChunk :=
  match c with
  | [] => .panic "index out of range"
  | enc :: bytes =>
    if enc = 1 ∨ enc = 2 ∨ enc = 3 then
      (fun type => { out with raw := some ⟨type, bytes, hashChunk bytes calculateChecksum⟩ }) <$>
        chunkToStoreEncoding enc
    else if enc ≠ 0xff then .error s!"unsupported chunk encoding {enc}"
    else aggrs.foldlM (populateAggr ⟨bytes⟩ calculateChecksum) out

/-- `populateChunk(&(res[seriesEntry].chks[chunk]), …)`: an index out of range panics. -/
def populateAt (res : List (List AggrChunk)) (seriesEntry chunk : Nat) (c : List UInt8)
    (aggrs : List Aggr) (calculateChecksum : Bool) : Result (List (List AggrChunk)) :=
  match res[seriesEntry]? with
  | none => .panic "index out of range"
  | some chks =>
    match chks[chunk]? with
    | none => .panic "index out of range"
    | some out =>
      match populateChunk out c aggrs calculateChecksum with
      | .ok out => .ok (res.set seriesEntry (chks.set chunk out))
      | .error err => .error ("populate chunk: " ++ err)
      | .panic msg => .panic msg

/-! ## `loadChunks` -/

/-- `io.ReadFull` of `n` bytes from a reader holding `r`: the bytes read, what is left,
and `io.ErrUnexpectedEOF`, or `io.EOF` if none came, when fewer than `n` came. -/
def ioReadFull (r : List UInt8) (n : Nat) : List UInt8 × List UInt8 × Option String :=
  (r.take n, r.drop n,
    if n ≤ r.length then none else if r = [] then some "EOF" else some "unexpected EOF")

/-- `bucketBlock.chunkRangeReader`: the bytes of the range of segment file `seq`. -/
def chunkRangeReader (segs : List Bucket) (seq : Nat) (off length : Int) :
    Except String (List UInt8) :=
  match segs[seq]? with
  | none => .error s!"unknown segment file for index {seq}"
  | some bkt => bkt.getRange off length

/-- `bucketBlock.readChunkRange` of the one range `[0, length)`: `readByteRanges` reads it
into a new buffer of `length` bytes with `io.ReadFull`, an unexpected EOF allowed. -/
def readChunkRange (segs : List Bucket) (seq : Nat) (off length : Int) :
    Except String (List UInt8) :=
  match segs[seq]? with
  | none => .error s!"unknown segment file for index {seq}"
  | some bkt =>
    match bkt.getRange off length with
    | .error err => .error ("get range reader: " ++ err)
    | .ok b =>
      let (got, _, err) := ioReadFull b length.toNat
      match err with
      | none => .ok got
      | some e =>
        if e = "unexpected EOF" then .ok (got ++ List.replicate (length.toNat - got.length) 0)
        else .error e

/-- `%x`. -/
def hexString (n : Nat) : String := String.ofList (Nat.toDigits 16 n)

/-- The bytes `loadChunks` reads for a chunk: `estimatedMaxChunkSize`, or the distance to the
next chunk of the part, a `uint32`, if that is less. -/
def chunkLenOf (est : Nat) (pIdx : LoadIdx) : List LoadIdx → Nat
  | [] => est
  | next :: _ =>
    let diff := (next.offset + 2 ^ 32 - pIdx.offset) % 2 ^ 32
    if diff < est then diff else est

/-- The rest of the turn for a chunk `cb` holds: its length read, the chunk populated from
`cb`, or from the whole chunk fetched again when `cb` holds less of it. -/
def loadChunkFrom (segs : List Bucket) (seq : Nat) (aggrs : List Aggr) (calculateChecksum : Bool)
    (pIdx : LoadIdx) (cb : List UInt8) (res : List (List AggrChunk)) :
    Result (List (List AggrChunk)) :=
  let (chunkDataLen, n) := uvarint cb
  if n < 1 then .error "reading chunk length failed"
  else
    -- `n + 1 + int(chunkDataLen)`, an `int`
    let chunkLen := wrapInt64 (n + 1 + toInt64 chunkDataLen)
    if chunkLen ≤ cb.length then
      -- `cb[n:chunkLen]`
      if chunkLen < n then .panic "slice bounds out of range"
      else populateAt res pIdx.seriesEntry pIdx.chunk ((cb.drop n.toNat).take (chunkLen - n).toNat)
        aggrs calculateChecksum
    else
      match readChunkRange segs seq (toInt64 pIdx.offset) chunkLen with
      | .error err =>
        .error (s!"preloaded chunk too small, expecting {chunkLen}, and failed to fetch full chunk: "
          ++ err)
      | .ok nb =>
        if (nb.length : Int) ≠ chunkLen then .error s!"preloaded chunk too small, expecting {chunkLen}"
        else populateAt res pIdx.seriesEntry pIdx.chunk (nb.drop n.toNat) aggrs calculateChecksum

/-- The fast forward of `loadChunks` from `readOffset` to the chunk at `off`. -/
def fastForward (rd : List UInt8) (readOffset off : Nat) : Except String (List UInt8 × Nat) :=
  if readOffset < off then
    match discard rd (off - readOffset) with
    | .error err => .error ("fast forward range reader: " ++ err)
    | .ok rd => .ok (rd, off)
  else .ok (rd, readOffset)

/-- The error of `io.ReadFull` that `loadChunks` stops at: all but an unexpected EOF at the
last chunk of the part. -/
def readFailure (err : Option String) (last : Bool) : Option String :=
  match err with
  | none => none
  | some e => if e = "unexpected EOF" ∧ last = true then none else some e

/-- The loop of `loadChunks` over the chunks of a part still to read, with the reader
holding `rd` at `readOffset` of the segment file and the buffer `buf`. -/
def loadChunksLoop (segs : List Bucket) (est seq : Nat) (aggrs : List Aggr)
    (calculateChecksum : Bool) :
    List LoadIdx → List UInt8 → Nat → List UInt8 → List (List AggrChunk) →
      Result (List (List AggrChunk))
  | [], _, _, _, res => .ok res
  | pIdx :: pIdxs, rd, readOffset, buf, res =>
    match fastForward rd readOffset pIdx.offset with
    | .error err => .error err
    | .ok (rd, readOffset) =>
      let chunkLen := chunkLenOf est pIdx pIdxs
      let (got, rd, err) := ioReadFull rd chunkLen
      -- `buf[:chunkLen]`, its first bytes read over
      let cb := got ++ (buf.take chunkLen).drop got.length
      match readFailure err pIdxs.isEmpty with
      | some e => .error s!"read range for seq {seq} offset {hexString pIdx.offset}: {e}"
      | none =>
        match loadChunkFrom segs seq aggrs calculateChecksum pIdx cb res with
        | .ok res =>
          loadChunksLoop segs est seq aggrs calculateChecksum pIdxs rd (readOffset + got.length)
            (cb ++ buf.drop chunkLen) res
        | .error err => .error err
        | .panic msg => .panic msg

/-- `bucketChunkReader.loadChunks` of a part of segment file `seq` with its requests. -/
def loadChunks (segs : List Bucket) (est seq : Nat) (aggrs : List Aggr) (calculateChecksum : Bool)
    (part : Part) (pIdxs : List LoadIdx) (res : List (List AggrChunk)) :
    Result (List (List AggrChunk)) :=
  match chunkRangeReader segs seq (toInt64 part.start) (toInt64 (subU64 part.stop part.start)) with
  | .error err => .error ("get range reader: " ++ err)
  | .ok rd =>
    match pIdxs with
    | [] => .panic "index out of range"
    | first :: _ =>
      loadChunksLoop segs est seq aggrs calculateChecksum pIdxs rd first.offset
        (List.replicate est 0) res

/-- The ranges `load` gives the partitioner: `estimatedMaxChunkSize` bytes from each offset,
a `uint64` sum. -/
def chunkRange (pIdxs : List LoadIdx) (est : Nat) (i : Nat) : Nat × Nat :=
  ((pIdxs.getD i default).offset, ((pIdxs.getD i default).offset + est) % 2 ^ 64)

/-- The loop of `load` over the segment files from `seq` on: the requests of each sorted by
offset, partitioned, and each part loaded. -/
def loadLoop (segs : List Bucket) (sortSlice : List LoadIdx → List LoadIdx)
    (partitioner : GapBasedPartitioner) (est : Nat) (aggrs : List Aggr)
    (calculateChecksum : Bool) : Nat → List (List LoadIdx) → List (List AggrChunk) →
      Result (List (List AggrChunk))
  | _, [], res => .ok res
  | seq, pIdxs :: toLoad, res =>
    let pIdxs := sortSlice pIdxs
    let parts := partitioner.partition pIdxs.length (chunkRange pIdxs est)
    match parts.foldlM (fun res p =>
        loadChunks segs est seq aggrs calculateChecksum p (slice pIdxs p.elemRng) res) res with
    | .ok res => loadLoop segs sortSlice partitioner est aggrs calculateChecksum (seq + 1) toLoad res
    | .error err => .error err
    | .panic msg => .panic msg

/-- `bucketChunkReader.load`. -/
def load (segs : List Bucket) (sortSlice : List LoadIdx → List LoadIdx)
    (partitioner : GapBasedPartitioner) (est : Nat) (toLoad : List (List LoadIdx))
    (res : List (List AggrChunk)) (aggrs : List Aggr) (calculateChecksum : Bool) :
    Result (List (List AggrChunk)) :=
  loadLoop segs sortSlice partitioner est aggrs calculateChecksum 0 toLoad res

/-! ## Chunks in a segment file -/

/-- The segment file holds at `off` the chunk `c`: the uvarint length of its bytes, its
encoding byte, its bytes, and a 4-byte CRC. -/
def ChunkAt (seg : List UInt8) (off : Nat) (c : RawChunk) : Prop :=
  ∃ crc rest, crc.length = 4 ∧
    seg.drop off = putUvarint c.bytes.length ++ c.encoding :: c.bytes ++ crc ++ rest

/-- The bytes of a chunk before its CRC. -/
def chunkSize (c : RawChunk) : Nat := (putUvarint c.bytes.length).length + 1 + c.bytes.length

/-- A prefix of the bytes read, whatever the buffer held after them. -/
theorem take_take_append {l s : List UInt8} {k m : Nat} (hk : m ≤ k) (hl : m ≤ l.length) :
    (l.take k ++ s).take m = l.take m := by
  rw [List.take_append_of_le_length (by rw [List.length_take]; omega), List.take_take,
    Nat.min_eq_left hk]

section Chunk

variable {seg : List UInt8} {off : Nat} {c : RawChunk}

theorem ChunkAt.le_length (h : ChunkAt seg off c) : off + chunkSize c + 4 ≤ seg.length := by
  obtain ⟨crc, rest, hcrc, h⟩ := h
  have hlen := congrArg List.length h
  simp only [List.length_drop, List.length_append, List.length_cons] at hlen
  unfold chunkSize
  omega

/-- The bytes at a chunk: its uvarint, then its encoding byte and bytes. -/
theorem ChunkAt.take_chunkSize (h : ChunkAt seg off c) :
    (seg.drop off).take (chunkSize c) = putUvarint c.bytes.length ++ c.encoding :: c.bytes := by
  obtain ⟨crc, rest, -, h⟩ := h
  rw [h, List.append_assoc, List.take_append_of_le_length (by simp [chunkSize]; omega),
    List.take_of_length_le (by simp [chunkSize]; omega)]

theorem ChunkAt.take_uvarint (h : ChunkAt seg off c) :
    (seg.drop off).take (putUvarint c.bytes.length).length = putUvarint c.bytes.length := by
  have hle : (putUvarint c.bytes.length).length ≤ chunkSize c := by unfold chunkSize; omega
  rw [← Nat.min_eq_left hle, ← List.take_take, h.take_chunkSize, List.take_left]

theorem readChunkRange_chunk {segs : List Bucket} {seq : Nat}
    (hseg : segs[seq]? = some (objectBucket seg)) (h : ChunkAt seg off c) (hoff : off < 2 ^ 63) :
    readChunkRange segs seq (toInt64 off) (chunkSize c) =
      .ok (putUvarint c.bytes.length ++ c.encoding :: c.bytes) := by
  have hL := h.le_length
  unfold readChunkRange ioReadFull
  simp only [hseg, objectBucket, toInt64_of_lt hoff, Int.toNat_natCast, List.length_take,
    List.length_drop, show chunkSize c ≤ min (chunkSize c) (seg.length - off) by omega, if_true]
  exact congrArg Except.ok (by rw [List.take_take, Nat.min_self, h.take_chunkSize])

/-- The turn for a chunk once `cb` holds the first `k` bytes at it, `k` at least the
chunk's uvarint: the chunk is populated, from `cb` if it holds the whole chunk, and from the
chunk fetched again if not. -/
theorem loadChunkFrom_chunk {segs : List Bucket} {seq : Nat} {aggrs : List Aggr}
    {calculateChecksum : Bool} {pIdx : LoadIdx} {res : List (List AggrChunk)}
    (hseg : segs[seq]? = some (objectBucket seg)) (h : ChunkAt seg pIdx.offset c)
    (hsmall : seg.length < 2 ^ 63) {k : Nat} {cb stale : List UInt8}
    (hcb : cb = (seg.drop pIdx.offset).take k ++ stale) (hlen : cb.length = k)
    (hk : (putUvarint c.bytes.length).length ≤ k) :
    loadChunkFrom segs seq aggrs calculateChecksum pIdx cb res =
      populateAt res pIdx.seriesEntry pIdx.chunk (c.encoding :: c.bytes) aggrs calculateChecksum := by
  have hL := h.le_length
  have hone := List.length_pos_iff.mpr (putUvarint_ne_nil c.bytes.length)
  set u := (putUvarint c.bytes.length).length with hu
  -- `cb` starts with the chunk's uvarint
  have htake : cb.take u = putUvarint c.bytes.length := by
    rw [hcb, take_take_append hk (by rw [List.length_drop]; unfold chunkSize at hL; omega),
      h.take_uvarint]
  have huv : uvarint cb = (c.bytes.length, (u : Int)) := by
    rw [← List.take_append_drop u cb, htake]
    exact uvarint_putUvarint (by unfold chunkSize at hL; omega) _
  have hwrap : wrapInt64 ((u : Int) + 1 + toInt64 c.bytes.length) = chunkSize c := by
    rw [toInt64_of_lt (by unfold chunkSize at hL; omega)]
    rw [wrapInt64_of_isInt64 ⟨by omega, by unfold chunkSize at hL; omega⟩]
    unfold chunkSize
    push_cast
    ring
  unfold loadChunkFrom
  rw [huv]
  dsimp only
  rw [if_neg (by omega), hwrap]
  by_cases hfit : chunkSize c ≤ k
  · -- the whole chunk is in `cb`
    rw [if_pos (by rw [hlen]; exact_mod_cast hfit), if_neg (by unfold chunkSize; omega),
      show ((chunkSize c : Int) - u).toNat = chunkSize c - u by omega, Int.toNat_natCast,
      ← List.drop_take, hcb,
      take_take_append hfit (by rw [List.length_drop]; omega), h.take_chunkSize, List.drop_left]
  · -- the chunk is fetched again
    rw [if_neg (by rw [hlen]; exact_mod_cast hfit), readChunkRange_chunk hseg h (by omega)]
    dsimp only
    rw [if_neg (by simp [chunkSize]; omega), Int.toNat_natCast, List.drop_left]

end Chunk

/-! ## The walk of one part -/

/-- What `load` is for: each requested chunk of `(seq, pIdx)`, the chunk at its segment
file and offset, populated into its place, in turn. -/
def populateEach (chunkAt : Nat → Nat → RawChunk) (aggrs : List Aggr) (calculateChecksum : Bool)
    (res : List (List AggrChunk)) (reqs : List (Nat × LoadIdx)) : Result (List (List AggrChunk)) :=
  reqs.foldlM (fun res r => populateAt res r.2.seriesEntry r.2.chunk
    ((chunkAt r.1 r.2.offset).encoding :: (chunkAt r.1 r.2.offset).bytes) aggrs calculateChecksum) res

/-- The chunks of one part of a segment file `seg`, read up to `stop`: each a chunk of the
file, in order and apart, within the part with its `est` bytes, and with its uvarint within
them. -/
structure PartChunks (seg : List UInt8) (chunkAt : Nat → RawChunk) (est : Nat)
    (qs : List LoadIdx) (stop : Nat) : Prop where
  chunks : ∀ q ∈ qs, ChunkAt seg q.offset (chunkAt q.offset)
  apart : qs.Pairwise fun a b => a.offset + chunkSize (chunkAt a.offset) + 4 ≤ b.offset
  within : ∀ q ∈ qs, q.offset + est ≤ stop
  uvarint_le : ∀ q ∈ qs, (putUvarint (chunkAt q.offset).bytes.length).length ≤ est
  offset_lt : ∀ q ∈ qs, q.offset < 2 ^ 32

theorem PartChunks.tail {seg : List UInt8} {chunkAt : Nat → RawChunk} {est stop : Nat}
    {q : LoadIdx} {qs : List LoadIdx} (h : PartChunks seg chunkAt est (q :: qs) stop) :
    PartChunks seg chunkAt est qs stop :=
  ⟨fun q' hq => h.chunks q' (List.mem_cons_of_mem _ hq), (List.pairwise_cons.mp h.apart).2,
    fun q' hq => h.within q' (List.mem_cons_of_mem _ hq),
    fun q' hq => h.uvarint_le q' (List.mem_cons_of_mem _ hq),
    fun q' hq => h.offset_lt q' (List.mem_cons_of_mem _ hq)⟩

theorem chunkLenOf_cons {est : Nat} {q next : LoadIdx} {qs : List LoadIdx}
    (hle : q.offset ≤ next.offset) (hlt : next.offset < 2 ^ 32) :
    chunkLenOf est q (next :: qs) = min (next.offset - q.offset) est := by
  simp only [chunkLenOf]
  rw [show (next.offset + 2 ^ 32 - q.offset) % 2 ^ 32 = next.offset - q.offset by omega]
  split_ifs <;> omega

theorem chunkLenOf_le (est : Nat) (q : LoadIdx) (qs : List LoadIdx) : chunkLenOf est q qs ≤ est := by
  cases qs with
  | nil => exact Nat.le_refl _
  | cons next qs =>
    simp only [chunkLenOf]
    split_ifs <;> omega

section Walk

variable {segs : List Bucket} {seq est stop : Nat} {seg : List UInt8}
  {chunkAt : Nat → Nat → RawChunk} {aggrs : List Aggr} {calculateChecksum : Bool}

/-- The fast forward within the part's bytes to a chunk at or after the reader. -/
theorem fastForward_part {ro off : Nat} (hro : ro ≤ off) (hstop : off ≤ stop)
    (hseg : off ≤ seg.length) :
    fastForward ((seg.drop ro).take (stop - ro)) ro off = .ok ((seg.drop off).take (stop - off), off) := by
  unfold fastForward
  by_cases hlt : ro < off
  · rw [if_pos hlt, discard, if_neg (by simp only [List.length_take, List.length_drop]; omega),
      drop_partBytes hro]
  · rw [if_neg hlt]
    obtain rfl : ro = off := by omega
    rfl

theorem ioReadFull_take {l : List UInt8} {k m : Nat} (hk : k ≤ m) :
    (ioReadFull (l.take m) k).1 = l.take k := by
  simp only [ioReadFull, List.take_take, Nat.min_eq_left hk]

/-- One turn of the loop over a part: the chunk is read from the bytes up to it, populated
into its place, and the loop goes on with the reader past what it read. -/
theorem loadChunksLoop_cons (hseg : segs[seq]? = some (objectBucket seg))
    (hsmall : seg.length < 2 ^ 63) (hest : 1 ≤ est) {q : LoadIdx} {qs : List LoadIdx} {ro : Nat}
    {buf : List UInt8} {res : List (List AggrChunk)}
    (hpart : PartChunks seg (chunkAt seq) est (q :: qs) stop) (hro : ro ≤ q.offset)
    (hbuf : buf.length = est) :
    let k := chunkLenOf est q qs
    let got := (seg.drop q.offset).take k
    loadChunksLoop segs est seq aggrs calculateChecksum (q :: qs) ((seg.drop ro).take (stop - ro)) ro
        buf res =
      match populateAt res q.seriesEntry q.chunk
          ((chunkAt seq q.offset).encoding :: (chunkAt seq q.offset).bytes) aggrs calculateChecksum with
      | .ok res' =>
        loadChunksLoop segs est seq aggrs calculateChecksum qs
          (((seg.drop q.offset).take (stop - q.offset)).drop k) (q.offset + got.length)
          ((got ++ (buf.take k).drop got.length) ++ buf.drop k) res'
      | .error err => .error err
      | .panic msg => .panic msg := by
  intro k got
  have hq := hpart.chunks q List.mem_cons_self
  have hL := hq.le_length
  have hwithin := hpart.within q List.mem_cons_self
  have huv := hpart.uvarint_le q List.mem_cons_self
  have hkest : k ≤ est := chunkLenOf_le est q qs
  -- the bytes read hold the chunk's uvarint, and do not reach the next chunk
  have hku : (putUvarint (chunkAt seq q.offset).bytes.length).length ≤ k ∧
      ∀ next ∈ qs.head?, q.offset + k ≤ next.offset := by
    rcases qs with _ | ⟨next, qs⟩
    · exact ⟨huv, fun _ h => absurd h (by simp)⟩
    · have hap := (List.pairwise_cons.mp hpart.apart).1 next List.mem_cons_self
      have hlen := @chunkLenOf_cons est q next qs (show q.offset ≤ next.offset by omega)
        (hpart.offset_lt next (List.mem_cons_of_mem _ List.mem_cons_self))
      unfold chunkSize at hap
      refine ⟨by omega, fun next' hnext' => ?_⟩
      obtain rfl : next' = next := (Option.some.inj hnext').symm
      omega
  have hrd : ((seg.drop q.offset).take (stop - q.offset)).length =
      min (stop - q.offset) (seg.length - q.offset) := by
    simp only [List.length_take, List.length_drop]
  have hfail : readFailure (ioReadFull ((seg.drop q.offset).take (stop - q.offset)) k).2.2
      qs.isEmpty = none := by
    rcases qs with _ | ⟨next, qs⟩
    · -- the last chunk: at most an unexpected EOF, as the part's bytes are not empty
      have hne : (seg.drop q.offset).take (stop - q.offset) ≠ [] := by
        intro h
        have := congrArg List.length h
        unfold chunkSize at hL
        rw [hrd] at this
        simp only [List.length_nil] at this
        omega
      simp only [ioReadFull, readFailure, List.isEmpty_nil]
      by_cases hk : k ≤ ((seg.drop q.offset).take (stop - q.offset)).length
      · rw [if_pos hk]
      · rw [if_neg hk, if_neg hne]
        simp
    · -- a chunk before the next one of the part is read in full
      have hnext := hku.2 next rfl
      have hnextL := (hpart.chunks next (List.mem_cons_of_mem _ List.mem_cons_self)).le_length
      have hk : k ≤ ((seg.drop q.offset).take (stop - q.offset)).length := by
        rw [hrd]
        unfold chunkSize at hnextL
        omega
      unfold ioReadFull
      rw [if_pos hk]
      rfl
  have hcb : got ++ (buf.take k).drop got.length =
      (seg.drop q.offset).take k ++ (buf.take k).drop got.length := rfl
  have hlen : (got ++ (buf.take k).drop got.length).length = k := by
    have : got.length ≤ k := by simp only [got, List.length_take]; omega
    simp only [List.length_append, List.length_drop, List.length_take, hbuf]
    omega
  rw [loadChunksLoop, fastForward_part hro (by omega) (by omega)]
  dsimp only
  rw [hfail]
  dsimp only
  rw [ioReadFull_take (by omega)]
  rw [loadChunkFrom_chunk hseg hq hsmall hcb hlen hku.1]
  rfl

/-- Over the chunks of a part, from a reader at or before the first of them, the loop
populates each chunk in turn. -/
theorem loadChunksLoop_part (hseg : segs[seq]? = some (objectBucket seg))
    (hsmall : seg.length < 2 ^ 63) (hest : 1 ≤ est) :
    ∀ (qs : List LoadIdx) (ro : Nat) (buf : List UInt8) (res : List (List AggrChunk)),
      PartChunks seg (chunkAt seq) est qs stop → (∀ q ∈ qs.head?, ro ≤ q.offset) →
        buf.length = est →
          loadChunksLoop segs est seq aggrs calculateChecksum qs ((seg.drop ro).take (stop - ro))
              ro buf res =
            populateEach chunkAt aggrs calculateChecksum res (qs.map (seq, ·))
  | [], _, _, _, _, _, _ => rfl
  | [q], ro, buf, res, hpart, hro, hbuf => by
    rw [loadChunksLoop_cons hseg hsmall hest hpart (hro q rfl) hbuf]
    simp only [populateEach, List.map_cons, List.map_nil, List.foldlM_cons]
    cases populateAt res q.seriesEntry q.chunk _ aggrs calculateChecksum <;> rfl
  | q :: next :: qs, ro, buf, res, hpart, hro, hbuf => by
    have hap := (List.pairwise_cons.mp hpart.apart).1 next List.mem_cons_self
    have hnextL := (hpart.chunks next (List.mem_cons_of_mem _ List.mem_cons_self)).le_length
    have hwithin := hpart.within q List.mem_cons_self
    have hlen := @chunkLenOf_cons est q next qs (show q.offset ≤ next.offset by omega)
      (hpart.offset_lt next (List.mem_cons_of_mem _ List.mem_cons_self))
    -- a chunk before the next one is read in full, and the reader stops at or before it
    have hgot : ((seg.drop q.offset).take (chunkLenOf est q (next :: qs))).length =
        chunkLenOf est q (next :: qs) := by
      rw [List.length_take, List.length_drop]
      apply Nat.min_eq_left
      have h1 : chunkLenOf est q (next :: qs) ≤ next.offset - q.offset := by
        rw [hlen]
        exact Nat.min_le_left _ _
      have h2 : next.offset ≤ seg.length := by omega
      omega
    have hdrop : ((seg.drop q.offset).take (stop - q.offset)).drop (chunkLenOf est q (next :: qs)) =
        (seg.drop (q.offset + chunkLenOf est q (next :: qs))).take
          (stop - (q.offset + chunkLenOf est q (next :: qs))) := by
      rw [← drop_partBytes (Nat.le_add_right _ _), Nat.add_sub_cancel_left]
    have hnext : q.offset + chunkLenOf est q (next :: qs) ≤ next.offset := by
      have h1 : chunkLenOf est q (next :: qs) ≤ next.offset - q.offset := by
        rw [hlen]
        exact Nat.min_le_left _ _
      omega
    -- the buffer keeps its `est` bytes
    have hbuf' : ((seg.drop q.offset).take (chunkLenOf est q (next :: qs)) ++
        (buf.take (chunkLenOf est q (next :: qs))).drop (chunkLenOf est q (next :: qs)) ++
        buf.drop (chunkLenOf est q (next :: qs))).length = est := by
      have hk := chunkLenOf_le est q (next :: qs)
      rw [List.length_append, List.length_append, List.length_drop, List.length_drop, hgot,
        List.length_take, hbuf, Nat.min_eq_left hk]
      omega
    rw [loadChunksLoop_cons hseg hsmall hest hpart (hro q rfl) hbuf]
    simp only [populateEach, List.map_cons, List.foldlM_cons]
    cases populateAt res q.seriesEntry q.chunk _ aggrs calculateChecksum with
    | ok res' =>
      rw [hgot, hdrop]
      exact loadChunksLoop_part hseg hsmall hest (next :: qs) _ _ res' hpart.tail
        (fun _ h => (Option.some.inj h).symm ▸ hnext) hbuf'
    | error err => rfl
    | panic msg => rfl

end Walk

end Thanos.Store
