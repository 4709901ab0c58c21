import Thanos.Go.Binary
import Thanos.IndexHeader.BinaryReader
import Thanos.Store.CachingBucket
import Thanos.Store.Partitioner

/-! # Coalesced reads of postings lists

`bucketIndexReader.fetchPostings` finds the postings list of each key in the index header,
sorts the pointers by start, coalesces them with the partitioner, reads each part in one
`GetRange`, and walks the part with a `postingsReaderBuilder`: it discards the bytes
between two lists, reads a list (a 4-byte big-endian count, then that many 4-byte
big-endian refs) and re-encodes it as the uvarints of the differences of its refs. Equal
pointers that follow each other (a key asked for twice) are read once and replayed through
`repeatFor`. Each key's output is then a `diffVarintPostings` over the re-encoded list, or
the empty postings for a key the index does not have.

Keys are of any type: the index header's `PostingsOffset` is a parameter. The index cache
misses (its `FetchMultiPostings` finds nothing and `StorePostings` is left out, with the
snappy encoding of what it would store), the bytes limiter is unlimited and the context is
never cancelled. `sort.Slice` is not stable: it is a parameter, and the results hold for
every sort that returns its input ordered by start. The parts' goroutines run one after the
other, in the order of the parts. -/

namespace Thanos.Store

open GoBinary Cache RangeTiling IndexHeader

/-- `indexheader.NotFoundRangeErr`. -/
def notFoundRangeErr : String := "range not found"

/-- `postingPtr`. -/
structure PostingPtr where
  keyID : Nat
  ptr : Range
  deriving DecidableEq, Repr

instance : Inhabited PostingPtr := ⟨⟨0, ⟨0, 0⟩⟩⟩

/-- `binary.BigEndian.Uint32`. -/
def bigEndianUint32 (b0 b1 b2 b3 : UInt8) : Nat :=
  b0.toNat * 2 ^ 24 + b1.toNat * 2 ^ 16 + b2.toNat * 2 ^ 8 + b3.toNat

/-- `getInt32` on a reader holding `r`: the value and the bytes left. `io.ReadFull` fails
with `io.EOF` when there is no byte and with `io.ErrUnexpectedEOF` when there are some. -/
def getInt32 (r : List UInt8) : Except String (Nat × List UInt8) :=
  match r with
  | b0 :: b1 :: b2 :: b3 :: rest => .ok (bigEndianUint32 b0 b1 b2 b3, rest)
  | [] => .error "reading: EOF"
  | _ => .error "reading: unexpected EOF"

/-- `bufio.Reader.Discard` on a reader holding `r`. -/
def discard (r : List UInt8) (n : Nat) : Except String (List UInt8) :=
  if r.length < n then .error "EOF" else .ok (r.drop n)

/-- `postingsReaderBuilder`; `r` is what its reader has left. -/
structure PostingsReaderBuilder where
  e : Option String
  r : List UInt8
  postings : List PostingPtr
  lastOffset : Int
  pi : Nat
  start : Int
  length : Int
  cur : List UInt8
  keyID : Nat
  repeatFor : Nat
  numberOfPostingsInCur : Nat
  deriving DecidableEq, Repr

def newPostingsReaderBuilder (r : List UInt8) (postings : List PostingPtr) (start length : Int) :
    PostingsReaderBuilder :=
  ⟨none, r, postings, 0, 0, start, length, [], 0, 0, 0⟩

/-- The loop of `Next` over the refs of a list, `count` of them left and `prev` the one
before: each is appended to `cur` as the uvarint of its `uint32` difference to `prev`. -/
def PostingsReaderBuilder.readLoop (r : PostingsReaderBuilder) : Nat → Nat → PostingsReaderBuilder
  | 0, _ => r
  | count + 1, prev =>
    match getInt32 r.r with
    | .error err => { r with e := some err }
    | .ok (posting, rest) =>
      readLoop
        { r with
          r := rest, lastOffset := r.lastOffset + 4,
          cur := r.cur ++ putUvarint ((posting + 2 ^ 32 - prev) % 2 ^ 32) }
        count posting

/-- The loop of `Next` after a list: the pointers that follow, each equal to the one before
it, move `pi` on and are counted in `repeatFor`. -/
def repeatLoop : Range → List PostingPtr → Nat × Nat → Nat × Nat
  | _, [], acc => acc
  | prev, q :: qs, (pi, repeatFor) =>
    if q.ptr.start = prev.start ∧ q.ptr.stop = prev.stop then
      repeatLoop q.ptr qs (pi + 1, repeatFor + 1)
    else (pi, repeatFor)

/-- `postingsReaderBuilder.Next`. -/
def PostingsReaderBuilder.next (r : PostingsReaderBuilder) : Result (PostingsReaderBuilder × Bool) :=
  if 0 < r.repeatFor then
    .ok ({ r with
      keyID := (r.postings.getD (r.pi - r.repeatFor) default).keyID,
      repeatFor := r.repeatFor - 1 }, true)
  else if r.postings.length ≤ r.pi then .ok (r, false)
  else if r.e.isSome then .ok (r, false)
  else
    let p := r.postings.getD r.pi default
    -- `from`
    let offset := p.ptr.start - r.start
    if offset - r.lastOffset < 0 then .panic "would have skipped negative bytes"
    else
      match discard r.r (offset - r.lastOffset).toNat with
      | .error err => .ok ({ r with e := some err }, false)
      | .ok rest =>
        match getInt32 rest with
        | .error err => .ok ({ r with r := rest, lastOffset := offset, e := some err }, false)
        | .ok (postingsCount, rest) =>
          let r := ({ r with r := rest, lastOffset := offset + 4, cur := [] }).readLoop postingsCount 0
          if r.e.isSome then .ok (r, false)
          else
            let (pi, repeatFor) := repeatLoop p.ptr (r.postings.drop (r.pi + 1)) (r.pi + 1, r.repeatFor)
            .ok ({ r with
              numberOfPostingsInCur := postingsCount, keyID := p.keyID, pi := pi,
              repeatFor := repeatFor }, true)

/-! ## How far one `Next` moves -/

theorem repeatLoop_spec : ∀ (prev : Range) (qs : List PostingPtr) (a b : Nat),
    ∃ k ≤ qs.length, repeatLoop prev qs (a, b) = (a + k, b + k) ∧
      (∀ q ∈ qs.take k, q.ptr = prev) ∧ ∀ q ∈ (qs.drop k).head?, q.ptr ≠ prev
  | prev, [], a, b => ⟨0, Nat.le_refl _, rfl, by simp, by simp⟩
  | prev, q :: qs, a, b => by
    by_cases hq : q.ptr.start = prev.start ∧ q.ptr.stop = prev.stop
    · -- an equal pointer: counted, and the loop goes on from it
      have heq : q.ptr = prev := by
        cases hp : q.ptr
        cases prev
        rw [hp] at hq
        simp_all
      obtain ⟨k, hk, hrun, hsame, hnext⟩ := repeatLoop_spec q.ptr qs (a + 1) (b + 1)
      refine ⟨k + 1, by simpa using hk, ?_, ?_, ?_⟩
      · rw [repeatLoop, if_pos hq, hrun]
        simp only [Prod.mk.injEq]
        omega
      · intro q' hq'
        rcases List.mem_cons.mp (by simpa using hq') with rfl | hq'
        · exact heq
        · rw [hsame q' hq', heq]
      · simpa [heq] using hnext
    · refine ⟨0, Nat.zero_le _, by rw [repeatLoop, if_neg hq]; rfl, by simp, ?_⟩
      intro q' hq' heq
      simp only [List.drop_zero, List.head?_cons, Option.mem_def, Option.some.injEq] at hq'
      subst hq'
      exact hq ⟨by rw [heq], by rw [heq]⟩

theorem readLoop_frame (r : PostingsReaderBuilder) : ∀ (count prev : Nat),
    (r.readLoop count prev).postings = r.postings ∧ (r.readLoop count prev).pi = r.pi ∧
      (r.readLoop count prev).repeatFor = r.repeatFor
  | 0, _ => ⟨rfl, rfl, rfl⟩
  | count + 1, prev => by
    rw [PostingsReaderBuilder.readLoop]
    split
    · exact ⟨rfl, rfl, rfl⟩
    · exact readLoop_frame _ count _

/-- A `Next` that returns true replays one pointer, or reads the next one and counts the
equal pointers after it. -/
theorem next_true_frame {r r' : PostingsReaderBuilder} (h : r.next = .ok (r', true)) :
    r'.postings = r.postings ∧
      ((r'.pi = r.pi ∧ r'.repeatFor + 1 = r.repeatFor) ∨
        (r.repeatFor = 0 ∧ r.pi < r.postings.length ∧ r.pi + 1 + r'.repeatFor = r'.pi ∧
          r'.pi ≤ r.postings.length)) := by
  unfold PostingsReaderBuilder.next at h
  dsimp only at h
  split_ifs at h with hrep hlen herr hneg
  · -- a replay
    cases h
    exact ⟨rfl, .inl ⟨rfl, by dsimp only; omega⟩⟩
  · cases h
  · cases h
  · -- a read: the discard and the reads succeed
    split at h
    · cases h
    · split at h
      · cases h
      · rename_i postingsCount rest' _
        obtain ⟨hps, hpi, hrf⟩ := readLoop_frame
          { r with
            r := rest', lastOffset := (r.postings.getD r.pi default).ptr.start - r.start + 4,
            cur := [] } postingsCount 0
        dsimp only at hps hpi hrf
        split_ifs at h with herr'
        · cases h
        · have hrf0 : r.repeatFor = 0 := by omega
          obtain ⟨k, hk, hrun, -, -⟩ := repeatLoop_spec (r.postings.getD r.pi default).ptr
            (r.postings.drop (r.pi + 1)) (r.pi + 1) 0
          simp only [hps, hpi, hrf] at h
          simp only [hrf0, hrun] at h
          cases h
          simp only [List.length_drop] at hk
          exact ⟨rfl, .inr ⟨hrf0, by omega, by dsimp only; omega, by dsimp only; omega⟩⟩

/-- The measure a `Next` that returns true lowers: the pointers not read and the replays
left. -/
theorem next_true_lt {r r' : PostingsReaderBuilder} (h : r.next = .ok (r', true)) :
    r'.postings.length - r'.pi + r'.repeatFor < r.postings.length - r.pi + r.repeatFor := by
  obtain ⟨hps, ⟨hpi, hrf⟩ | ⟨hrf, hlt, hpi, hle⟩⟩ := next_true_frame h
  · rw [hps, hpi]
    omega
  · rw [hps]
    omega

-- `hnext` is read by `decreasing_by` only
set_option linter.unusedVariables false in
/-- The `for rdr.Next()` loop of `fetchPostings`: what `AtDiffVarint` returns after each
`Next` that returns true, and the builder at the end. -/
def PostingsReaderBuilder.drain (r : PostingsReaderBuilder) :
    Result (List (List UInt8 × Nat × Nat) × PostingsReaderBuilder) :=
  match hnext : r.next with
  | .ok (r', true) => do
    let (items, r'') ← r'.drain
    pure ((r'.cur, r'.numberOfPostingsInCur, r'.keyID) :: items, r'')
  | .ok (r', false) => .ok ([], r')
  | .error err => .error err
  | .panic msg => .panic msg
termination_by r.postings.length - r.pi + r.repeatFor
decreasing_by exact next_true_lt hnext

/-! ## The postings handed out -/

/-- The postings `fetchPostings` hands out: `index.EmptyPostings()`, or a
`diffVarintPostings` over its input. -/
inductive Postings where
  | empty
  | diffVarint (input : List UInt8)
  deriving DecidableEq, Repr

/-- `diffVarintPostings`: its buffer and the ref it is at. -/
structure DiffVarintPostings where
  buf : Decbuf
  cur : Nat
  deriving DecidableEq, Repr

/-- `diffVarintPostings.Next`; a `SeriesRef` is a `uint64`. -/
def DiffVarintPostings.next (it : DiffVarintPostings) : DiffVarintPostings × Bool :=
  if it.buf.e.isSome ∨ it.buf.b.length = 0 then (it, false)
  else
    let (buf, val) := it.buf.uvarint64
    if buf.e.isSome then ({ it with buf := buf }, false)
    else (⟨buf, (it.cur + val) % 2 ^ 64⟩, true)

/-- A read of a uvarint that does not fail takes at least one byte. -/
theorem length_uvarint64_lt {d : Decbuf} (hne : d.b ≠ []) (herr : (d.uvarint64).1.e = none) :
    (d.uvarint64).1.b.length < d.b.length := by
  unfold Decbuf.uvarint64 at herr ⊢
  dsimp only at herr ⊢
  by_cases he : d.e.isSome
  · rw [if_pos he] at herr
    have hnone : d.e = none := herr
    simp [hnone] at he
  · rw [if_neg he] at herr ⊢
    by_cases hshort : (uvarint d.b).2 < 1
    · rw [if_pos hshort] at herr
      cases herr
    · rw [if_neg hshort]
      simp only [List.length_drop]
      have := List.length_pos_iff.mpr hne
      omega

/-- A `Next` that returns true reads at least one byte. -/
theorem DiffVarintPostings.next_true_lt {it it' : DiffVarintPostings} (h : it.next = (it', true)) :
    it'.buf.b.length < it.buf.b.length := by
  unfold DiffVarintPostings.next at h
  rcases hd : it.buf.uvarint64 with ⟨buf, val⟩
  rw [hd] at h
  dsimp only at h
  by_cases hend : it.buf.e.isSome ∨ it.buf.b.length = 0
  · rw [if_pos hend] at h
    cases h
  · rw [if_neg hend] at h
    by_cases herr : buf.e.isSome
    · rw [if_pos herr] at h
      cases h
    · rw [if_neg herr] at h
      cases h
      have hne : it.buf.b ≠ [] := fun hnil => hend (.inr (by rw [hnil]; rfl))
      have hlt := length_uvarint64_lt hne (by rw [hd]; simpa using herr)
      rw [hd] at hlt
      exact hlt

set_option linter.unusedVariables false in
/-- The refs a `diffVarintPostings` yields: `At` after each `Next` that returns true. -/
def DiffVarintPostings.expand (it : DiffVarintPostings) : List Nat :=
  match hnext : it.next with
  | (it', true) => it'.cur :: it'.expand
  | (_, false) => []
termination_by it.buf.b.length
decreasing_by exact DiffVarintPostings.next_true_lt hnext

/-- The refs the postings yield. -/
def Postings.expand : Postings → List Nat
  | .empty => []
  | .diffVarint input => DiffVarintPostings.expand ⟨⟨input, none⟩, 0⟩

/-! ## `fetchPostings` -/

/-- The loop of `fetchPostings` over the keys: the empty postings for a key the index
header does not find, and a pointer for each other key. -/
def fetchPostingsKeys {K : Type} (postingsOffset : K → Except String Range) :
    List K → Nat → List (Option Postings) → List PostingPtr →
      Except String (List (Option Postings) × List PostingPtr)
  | [], _, output, ptrs => .ok (output, ptrs)
  | key :: keys, ix, output, ptrs =>
    match postingsOffset key with
    | .error err =>
      if err = notFoundRangeErr then
        fetchPostingsKeys postingsOffset keys (ix + 1) (output.set ix (some .empty)) ptrs
      else .error ("index header PostingsOffset: " ++ err)
    | .ok ptr => fetchPostingsKeys postingsOffset keys (ix + 1) output (ptrs ++ [⟨ix, ptr⟩])

/-- The range `fetchPostings` gives the `i`-th pointer. -/
def postingRange (ptrs : List PostingPtr) (i : Nat) : Nat × Nat :=
  (toUint64 (ptrs.getD i default).ptr.start, toUint64 (ptrs.getD i default).ptr.stop)

/-- The goroutine of one part: read its bytes, walk them with a builder over its pointers
and set the output of each key it yields. -/
def fetchPostingsPart (bkt : Bucket) (ptrs : List PostingPtr) (output : List (Option Postings))
    (part : Part) : Result (List (Option Postings)) :=
  let start := toInt64 part.start
  let length := toInt64 part.stop - start
  match bkt.getRange start length with
  | .error err => .error ("read postings range: " ++ err)
  | .ok b =>
    match (newPostingsReaderBuilder b (slice ptrs part.elemRng) start length).drain with
    | .error err => .error err
    | .panic msg => .panic msg
    | .ok (items, rdr) =>
      let output := items.foldl (fun output item => output.set item.2.2 (some (.diffVarint item.1)))
        output
      match rdr.e with
      | some err => .error ("reading postings: " ++ err)
      | none => .ok output

/-- `bucketIndexReader.fetchPostings`, with the index header's `PostingsOffset` and the
`sort.Slice` of the pointers by start. -/
def fetchPostings {K : Type} (postingsOffset : K → Except String Range)
    (sortSlice : List PostingPtr → List PostingPtr) (partitioner : GapBasedPartitioner)
    (bkt : Bucket) (keys : List K) : Result (List (Option Postings)) :=
  match fetchPostingsKeys postingsOffset keys 0 (List.replicate keys.length none) [] with
  | .error err => .error err
  | .ok (output, ptrs) =>
    let ptrs := sortSlice ptrs
    (partitioner.partition ptrs.length (postingRange ptrs)).foldlM (fetchPostingsPart bkt ptrs)
      output

/-! ## Postings lists in the index -/

/-- `binary.BigEndian.PutUint32`. -/
def bigEndianPutUint32 (x : Nat) : List UInt8 :=
  [(x / 2 ^ 24 % 256).toUInt8, (x / 2 ^ 16 % 256).toUInt8, (x / 2 ^ 8 % 256).toUInt8,
    (x % 256).toUInt8]

/-- The diff-varint encoding of refs after `prev`: the uvarint of each difference. -/
def encodeDiffVarint : Nat → List Nat → List UInt8
  | _, [] => []
  | prev, x :: xs => putUvarint (x - prev) ++ encodeDiffVarint x xs

/-- The index holds at `rng` the postings list of `refs`: its count and its refs, four
big-endian bytes each, from `rng.start` to `rng.stop`, the refs increasing. -/
structure PostingsListAt (index : List UInt8) (rng : Range) (refs : List Nat) : Prop where
  start_nonneg : 0 ≤ rng.start
  stop_eq : rng.stop = rng.start + 4 + 4 * refs.length
  bytes : ∃ rest, index.drop rng.start.toNat =
    bigEndianPutUint32 refs.length ++ refs.flatMap bigEndianPutUint32 ++ rest
  sorted : refs.Pairwise (· < ·)
  lt : ∀ x ∈ refs, x < 2 ^ 32
  length_lt : refs.length < 2 ^ 32

theorem getInt32_bigEndianPutUint32 {x : Nat} (hx : x < 2 ^ 32) (rest : List UInt8) :
    getInt32 (bigEndianPutUint32 x ++ rest) = .ok (x, rest) := by
  simp only [bigEndianPutUint32, List.cons_append, List.nil_append, getInt32, bigEndianUint32,
    Except.ok.injEq, Prod.mk.injEq, and_true]
  have h0 : (x / 2 ^ 24 % 256).toUInt8.toNat = x / 2 ^ 24 % 256 := toNat_toUInt8 (by omega)
  have h1 : (x / 2 ^ 16 % 256).toUInt8.toNat = x / 2 ^ 16 % 256 := toNat_toUInt8 (by omega)
  have h2 : (x / 2 ^ 8 % 256).toUInt8.toNat = x / 2 ^ 8 % 256 := toNat_toUInt8 (by omega)
  have h3 : (x % 256).toUInt8.toNat = x % 256 := toNat_toUInt8 (by omega)
  rw [h0, h1, h2, h3]
  omega

theorem length_bigEndianPutUint32 (x : Nat) : (bigEndianPutUint32 x).length = 4 := rfl

theorem length_flatMap_bigEndianPutUint32 (refs : List Nat) :
    (refs.flatMap bigEndianPutUint32).length = 4 * refs.length := by
  induction refs with
  | nil => rfl
  | cons x xs ih =>
    rw [List.flatMap_cons, List.length_append, length_bigEndianPutUint32, ih, List.length_cons]
    omega

theorem bigEndianPutUint32_inj {x y : Nat} (hx : x < 2 ^ 32) (hy : y < 2 ^ 32)
    (h : bigEndianPutUint32 x = bigEndianPutUint32 y) : x = y := by
  have := congrArg (fun b => getInt32 (b ++ [])) h
  rw [getInt32_bigEndianPutUint32 hx, getInt32_bigEndianPutUint32 hy] at this
  simpa using this

theorem flatMap_bigEndianPutUint32_inj : ∀ {xs ys : List Nat}, (∀ x ∈ xs, x < 2 ^ 32) →
    (∀ y ∈ ys, y < 2 ^ 32) → xs.flatMap bigEndianPutUint32 = ys.flatMap bigEndianPutUint32 →
      xs = ys
  | [], [], _, _, _ => rfl
  | [], _ :: _, _, _, h => by simp [bigEndianPutUint32] at h
  | _ :: _, [], _, _, h => by simp [bigEndianPutUint32] at h
  | x :: xs, y :: ys, hx, hy, h => by
    rw [List.flatMap_cons, List.flatMap_cons] at h
    have hval := bigEndianPutUint32_inj (hx x List.mem_cons_self) (hy y List.mem_cons_self)
      (List.append_inj_left h rfl)
    rw [hval, flatMap_bigEndianPutUint32_inj (fun z hz => hx z (List.mem_cons_of_mem _ hz))
      (fun z hz => hy z (List.mem_cons_of_mem _ hz)) (List.append_inj_right h rfl)]

/-- A list decodes to one list of refs only. -/
theorem PostingsListAt.unique {index : List UInt8} {rng : Range} {refs refs' : List Nat}
    (h : PostingsListAt index rng refs) (h' : PostingsListAt index rng refs') : refs = refs' := by
  have hlen : refs.length = refs'.length := by
    have := h.stop_eq.symm.trans h'.stop_eq
    omega
  obtain ⟨rest, hb⟩ := h.bytes
  obtain ⟨rest', hb'⟩ := h'.bytes
  rw [hb, hlen, List.append_assoc, List.append_assoc] at hb'
  -- the refs' bytes are as long on both sides, so they are equal
  have hflat : refs.flatMap bigEndianPutUint32 = refs'.flatMap bigEndianPutUint32 :=
    List.append_inj_left (List.append_cancel_left hb') (by rw [length_flatMap_bigEndianPutUint32,
      length_flatMap_bigEndianPutUint32, hlen])
  exact flatMap_bigEndianPutUint32_inj h.lt h'.lt hflat

/-- A postings list lies within the index. -/
theorem PostingsListAt.stop_le_length {index : List UInt8} {rng : Range} {refs : List Nat}
    (h : PostingsListAt index rng refs) : rng.stop.toNat ≤ index.length := by
  obtain ⟨rest, hb⟩ := h.bytes
  have hlen := congrArg List.length hb
  rw [List.length_drop, List.length_append, List.length_append, length_bigEndianPutUint32,
    length_flatMap_bigEndianPutUint32] at hlen
  have := h.stop_eq
  have := h.start_nonneg
  omega

/-! ## Reading a list and its re-encoding back -/

/-- The loop over the refs of a list appends their diff-varint encoding to `cur`. -/
theorem readLoop_refs : ∀ (refs : List Nat) (r : PostingsReaderBuilder) (prev : Nat)
    (rest : List UInt8), r.r = refs.flatMap bigEndianPutUint32 ++ rest →
    (∀ x ∈ refs, x < 2 ^ 32) → (∀ x ∈ refs, prev ≤ x) → refs.Pairwise (· < ·) →
      r.readLoop refs.length prev =
        { r with
          r := rest, lastOffset := r.lastOffset + 4 * refs.length,
          cur := r.cur ++ encodeDiffVarint prev refs }
  | [], r, prev, rest, hr, _, _, _ => by
    obtain rfl : r.r = rest := by simpa using hr
    cases r
    simp [PostingsReaderBuilder.readLoop, encodeDiffVarint]
  | x :: xs, r, prev, rest, hr, hlt, hle, hsorted => by
    have hx := hlt x List.mem_cons_self
    have hpx := hle x List.mem_cons_self
    obtain ⟨hxs, hsorted⟩ := List.pairwise_cons.mp hsorted
    rw [List.length_cons, PostingsReaderBuilder.readLoop, hr, List.flatMap_cons, List.append_assoc,
      getInt32_bigEndianPutUint32 hx]
    dsimp only
    rw [readLoop_refs xs _ x rest rfl (fun y hy => hlt y (List.mem_cons_of_mem _ hy))
      (fun y hy => Nat.le_of_lt (hxs y hy)) hsorted]
    -- the `uint32` difference is the difference
    have hdiff : (x + 2 ^ 32 - prev) % 2 ^ 32 = x - prev := by omega
    simp only [hdiff, encodeDiffVarint, List.append_assoc]
    congr 1
    omega

theorem DiffVarintPostings.expand_of_next_true {it it' : DiffVarintPostings}
    (h : it.next = (it', true)) : it.expand = it'.cur :: it'.expand := by
  rw [DiffVarintPostings.expand]
  split
  · rename_i it'' heq
    rw [h] at heq
    cases heq
    rfl
  · rename_i heq
    rw [h] at heq
    cases heq

theorem DiffVarintPostings.expand_of_next_false {it it' : DiffVarintPostings}
    (h : it.next = (it', false)) : it.expand = [] := by
  rw [DiffVarintPostings.expand]
  split
  · rename_i it'' heq
    rw [h] at heq
    cases heq
  · rfl

/-- A `diffVarintPostings` over the diff-varint encoding of increasing refs yields them. -/
theorem expand_encodeDiffVarint : ∀ (refs : List Nat) (prev : Nat), (∀ x ∈ refs, prev ≤ x) →
    refs.Pairwise (· < ·) → (∀ x ∈ refs, x < 2 ^ 64) →
      DiffVarintPostings.expand ⟨⟨encodeDiffVarint prev refs, none⟩, prev⟩ = refs
  | [], prev, _, _, _ =>
    DiffVarintPostings.expand_of_next_false
      (show DiffVarintPostings.next ⟨⟨encodeDiffVarint prev [], none⟩, prev⟩ =
        (⟨⟨[], none⟩, prev⟩, false) by simp [DiffVarintPostings.next, encodeDiffVarint])
  | x :: xs, prev, hle, hsorted, hlt => by
    have hx := hlt x List.mem_cons_self
    have hpx := hle x List.mem_cons_self
    obtain ⟨hxs, hsorted⟩ := List.pairwise_cons.mp hsorted
    have hne : encodeDiffVarint prev (x :: xs) ≠ [] := by
      simp [encodeDiffVarint, putUvarint_ne_nil]
    have hnext : DiffVarintPostings.next ⟨⟨encodeDiffVarint prev (x :: xs), none⟩, prev⟩ =
        (⟨⟨encodeDiffVarint x xs, none⟩, x⟩, true) := by
      have hlen : ¬(encodeDiffVarint prev (x :: xs)).length = 0 := by
        simpa [List.length_eq_zero_iff] using hne
      simp only [DiffVarintPostings.next, Option.isSome_none, Bool.false_eq_true, false_or, hlen,
        if_false]
      rw [encodeDiffVarint, Decbuf.uvarint64_putUvarint (by omega)]
      simp only [Option.isSome_none, Bool.false_eq_true, if_false]
      rw [show (prev + (x - prev)) % 2 ^ 64 = x by omega]
    rw [DiffVarintPostings.expand_of_next_true hnext,
      expand_encodeDiffVarint xs x (fun y hy => Nat.le_of_lt (hxs y hy)) hsorted
        (fun y hy => hlt y (List.mem_cons_of_mem _ hy))]

/-! ## The steps of the builder -/

section Steps

variable {r : PostingsReaderBuilder}

theorem next_replay (hrf : 0 < r.repeatFor) :
    r.next = .ok ({ r with
      keyID := (r.postings.getD (r.pi - r.repeatFor) default).keyID,
      repeatFor := r.repeatFor - 1 }, true) := by
  rw [PostingsReaderBuilder.next, if_pos hrf]

theorem next_end (hrf : r.repeatFor = 0) (hpi : r.postings.length ≤ r.pi) :
    r.next = .ok (r, false) := by
  rw [PostingsReaderBuilder.next, if_neg (by omega), if_pos hpi]

/-- A read of the next list, at or after the bytes already read: the list's count and refs,
re-encoded, and the equal pointers after it counted. -/
theorem next_read {p : PostingPtr} {refs : List Nat} {rest : List UInt8} (hrf : r.repeatFor = 0)
    (hpi : r.pi < r.postings.length) (he : r.e = none) (hp : r.postings[r.pi]? = some p)
    (hoff : r.lastOffset ≤ p.ptr.start - r.start)
    (hlen : (p.ptr.start - r.start - r.lastOffset).toNat ≤ r.r.length)
    (hr : r.r.drop (p.ptr.start - r.start - r.lastOffset).toNat =
      bigEndianPutUint32 refs.length ++ refs.flatMap bigEndianPutUint32 ++ rest)
    (hsorted : refs.Pairwise (· < ·)) (hlt : ∀ x ∈ refs, x < 2 ^ 32)
    (hcount : refs.length < 2 ^ 32) :
    ∃ k ≤ r.postings.length - (r.pi + 1),
      r.next = .ok ({ r with
        r := rest, lastOffset := p.ptr.start - r.start + 4 + 4 * refs.length,
        cur := encodeDiffVarint 0 refs, numberOfPostingsInCur := refs.length, keyID := p.keyID,
        pi := r.pi + 1 + k, repeatFor := k }, true) ∧
      (∀ q ∈ (r.postings.drop (r.pi + 1)).take k, q.ptr = p.ptr) ∧
      ∀ q ∈ (r.postings.drop (r.pi + 1 + k)).head?, q.ptr ≠ p.ptr := by
  have hgetD : r.postings.getD r.pi default = p := by
    simp [List.getD_eq_getElem?_getD, hp]
  obtain ⟨k, hk, hrun, hsame, hnext⟩ := repeatLoop_spec p.ptr (r.postings.drop (r.pi + 1))
    (r.pi + 1) 0
  refine ⟨k, by simpa using hk, ?_, hsame, by rwa [List.drop_drop] at hnext⟩
  have hread := readLoop_refs refs
    { r with
      e := none, r := refs.flatMap bigEndianPutUint32 ++ rest,
      lastOffset := p.ptr.start - r.start + 4, cur := [] } 0 rest rfl hlt (fun _ _ => Nat.zero_le _)
      hsorted
  unfold PostingsReaderBuilder.next
  simp only [if_neg (show ¬0 < r.repeatFor by omega), if_neg (show ¬r.postings.length ≤ r.pi by omega),
    he, Option.isSome_none, Bool.false_eq_true, if_false, hgetD,
    if_neg (show ¬p.ptr.start - r.start - r.lastOffset < 0 by omega), discard,
    if_neg (show ¬r.r.length < (p.ptr.start - r.start - r.lastOffset).toNat by omega), hr,
    List.append_assoc, getInt32_bigEndianPutUint32 hcount]
  rw [hread]
  simp only [Option.isSome_none, Bool.false_eq_true, if_false, hrf, hrun, List.nil_append]
  congr 3
  omega

end Steps

theorem drain_cons {r r' r'' : PostingsReaderBuilder} {items : List (List UInt8 × Nat × Nat)}
    (h : r.next = .ok (r', true)) (hd : r'.drain = .ok (items, r'')) :
    r.drain = .ok ((r'.cur, r'.numberOfPostingsInCur, r'.keyID) :: items, r'') := by
  rw [PostingsReaderBuilder.drain]
  split
  · rename_i r₁ heq
    rw [h] at heq
    cases heq
    rw [hd]
    rfl
  all_goals rename_i heq; rw [h] at heq; cases heq

theorem drain_nil {r r' : PostingsReaderBuilder} (h : r.next = .ok (r', false)) :
    r.drain = .ok ([], r') := by
  rw [PostingsReaderBuilder.drain]
  split
  all_goals rename_i heq; rw [h] at heq; cases heq
  rfl

/-! ## The walk of one part -/

section Walk

variable {index : List UInt8} {refsOf : PostingPtr → List Nat} {ps : List PostingPtr}
  {start stop : Nat}

/-- The pointers of one part, over the bytes `[start, stop)` of the index: each at a postings
list, in order, equal pointers next to each other and the others apart, all within the
part. -/
structure PartPtrs (index : List UInt8) (refsOf : PostingPtr → List Nat) (ps : List PostingPtr)
    (start stop : Nat) : Prop where
  lists : ∀ q ∈ ps, PostingsListAt index q.ptr (refsOf q)
  ordered : ps.Pairwise fun a b => a.ptr = b.ptr ∨ a.ptr.stop ≤ b.ptr.start
  within : ∀ q ∈ ps, (start : Int) ≤ q.ptr.start ∧ q.ptr.stop ≤ stop
  stop_le : stop ≤ index.length

/-- What `fetchPostings` gets for a pointer: its list's diff-varint encoding, its count and its
key. -/
def itemOf (refsOf : PostingPtr → List Nat) (q : PostingPtr) : List UInt8 × Nat × Nat :=
  (encodeDiffVarint 0 (refsOf q), (refsOf q).length, q.keyID)

/-- A builder walking the part: the pointers before `pi` read, the last list read at `Q`
with its refs `R` in `cur`, the `repeatFor` pointers before `pi` equal to it and still to
yield, and the reader just past it. -/
structure Walking (index : List UInt8) (refsOf : PostingPtr → List Nat) (ps : List PostingPtr)
    (start stop : Nat) (r : PostingsReaderBuilder) : Prop where
  postings_eq : r.postings = ps
  e_eq : r.e = none
  start_eq : r.start = start
  pi_le : r.pi ≤ ps.length
  fresh : r.pi = 0 → r.repeatFor = 0 ∧ r.lastOffset = 0 ∧
    r.r = (index.drop start).take (stop - start)
  read : 0 < r.pi → r.repeatFor < r.pi ∧ ∃ Q R, PostingsListAt index Q R ∧
    (∀ q ∈ slice ps (r.pi - r.repeatFor - 1, r.pi), q.ptr = Q) ∧
    r.lastOffset = Q.stop - start ∧
    r.r = ((index.drop start).take (stop - start)).drop (Q.stop - start).toNat ∧
    r.cur = encodeDiffVarint 0 R ∧ r.numberOfPostingsInCur = R.length ∧
    ∀ q, ps[r.pi]? = some q → q.ptr ≠ Q

theorem walking_new :
    Walking index refsOf ps start stop
      (newPostingsReaderBuilder ((index.drop start).take (stop - start)) ps start
        ((stop : Int) - start)) :=
  ⟨rfl, rfl, rfl, Nat.zero_le _, fun _ => ⟨rfl, rfl, rfl⟩, fun h => absurd h (Nat.lt_irrefl 0)⟩

/-- The bytes of the part from an offset within it on. -/
theorem drop_partBytes {a : Nat} (h1 : start ≤ a) :
    ((index.drop start).take (stop - start)).drop (a - start) = (index.drop a).take (stop - a) := by
  rw [List.drop_take, List.drop_drop, Nat.add_sub_cancel' h1, show stop - start - (a - start) = stop - a
    by omega]

variable {r : PostingsReaderBuilder}

/-- The replays still to yield are of pointers already read. -/
theorem Walking.repeatFor_le (hw : Walking index refsOf ps start stop r) :
    r.repeatFor ≤ r.pi := by
  rcases Nat.eq_zero_or_pos r.pi with h | h
  · have := (hw.fresh h).1
    omega
  · exact Nat.le_of_lt (hw.read h).1

/-- A replay keeps the walk and yields the next pointer's item. -/
theorem Walking.replay (hpart : PartPtrs index refsOf ps start stop)
    (hw : Walking index refsOf ps start stop r) (hrf : 0 < r.repeatFor) :
    ∃ q, ps[r.pi - r.repeatFor]? = some q ∧ r.postings.getD (r.pi - r.repeatFor) default = q ∧
      (r.cur, r.numberOfPostingsInCur, q.keyID) = itemOf refsOf q ∧
      Walking index refsOf ps start stop
        { r with
          keyID := (r.postings.getD (r.pi - r.repeatFor) default).keyID,
          repeatFor := r.repeatFor - 1 } := by
  have hpi : 0 < r.pi := Nat.pos_of_ne_zero fun h => by
    have := (hw.fresh h).1
    omega
  obtain ⟨hlt, Q, R, hQR, hsame, hoff, hr, hcur, hcount, hnext⟩ := hw.read hpi
  have hle := hw.pi_le
  have hbound : r.pi - r.repeatFor < ps.length := by omega
  have hq : ps[r.pi - r.repeatFor]? = some ps[r.pi - r.repeatFor] :=
    List.getElem?_eq_getElem hbound
  set q := ps[r.pi - r.repeatFor] with hqdef
  have hqptr : q.ptr = Q := hsame q (mem_slice_of_getElem? (by dsimp only; omega)
    (by dsimp only; omega) hq)
  have hrefs : refsOf q = R :=
    (hqptr ▸ hpart.lists q (List.mem_of_getElem? hq)).unique hQR
  refine ⟨q, hq, by simp [List.getD_eq_getElem?_getD, hw.postings_eq, hq], ?_, ?_⟩
  · rw [itemOf, hrefs, hcur, hcount]
  · refine ⟨hw.postings_eq, hw.e_eq, hw.start_eq, hle, fun h => absurd h (by dsimp only; omega),
      fun _ => ⟨by dsimp only; omega, Q, R, hQR, ?_, hoff, hr, hcur, hcount, hnext⟩⟩
    -- the replays left are among those before
    intro q' hq'
    obtain ⟨m, hm1, hm2, hm⟩ := exists_getElem?_of_mem_slice hq'
    exact hsame q' (mem_slice_of_getElem? (by dsimp only at hm1 ⊢; omega) hm2 hm)

/-- Where the last read left the reader: `L` bytes into the part, at or before the next
pointer. -/
theorem Walking.lastOffset_le (hpart : PartPtrs index refsOf ps start stop)
    (hw : Walking index refsOf ps start stop r) {p : PostingPtr} (hp : ps[r.pi]? = some p) :
    ∃ L : Nat, r.lastOffset = L ∧ r.r = ((index.drop start).take (stop - start)).drop L ∧
      (start : Int) + L ≤ p.ptr.start := by
  have hpmem := List.mem_of_getElem? hp
  by_cases hpi : r.pi = 0
  · obtain ⟨-, hoff, hr⟩ := hw.fresh hpi
    exact ⟨0, hoff, by rw [hr, List.drop_zero], by simpa using (hpart.within p hpmem).1⟩
  · obtain ⟨hlt, Q, R, hQR, hsame, hoff, hr, -, -, hnext⟩ := hw.read (Nat.pos_of_ne_zero hpi)
    obtain ⟨hlen, hpeq⟩ := List.getElem?_eq_some_iff.mp hp
    -- the pointer read last is the one before `p`, so its list ends before `p`'s starts
    have hprev : ps[r.pi - 1]? = some ps[r.pi - 1] := List.getElem?_eq_getElem (by omega)
    have hQ : ps[r.pi - 1].ptr = Q := hsame _ (mem_slice_of_getElem? (by dsimp only; omega)
      (by dsimp only; omega) hprev)
    have hord := List.pairwise_iff_getElem.mp hpart.ordered (r.pi - 1) r.pi (by omega) hlen
      (by omega)
    rw [hQ, hpeq] at hord
    have hQp : Q.stop ≤ p.ptr.start := hord.resolve_left (fun h => hnext _ hp h.symm)
    have hwithin := hpart.within _ (List.mem_of_getElem? hprev)
    have hQstart := (hpart.lists _ (List.mem_of_getElem? hprev)).stop_eq
    rw [hQ] at hwithin hQstart
    refine ⟨(Q.stop - start).toNat, by rw [hoff]; omega, hr, by omega⟩

/-- A read keeps the walk, moves it past the pointer read and its replays, and yields that
pointer's item. -/
theorem Walking.read_next (hpart : PartPtrs index refsOf ps start stop)
    (hw : Walking index refsOf ps start stop r) (hrf : r.repeatFor = 0) {p : PostingPtr}
    (hp : ps[r.pi]? = some p) :
    ∃ r', r.next = .ok (r', true) ∧ Walking index refsOf ps start stop r' ∧
      r'.pi - r'.repeatFor = r.pi + 1 ∧
      (r'.cur, r'.numberOfPostingsInCur, r'.keyID) = itemOf refsOf p := by
  obtain ⟨hlen, -⟩ := List.getElem?_eq_some_iff.mp hp
  have hpmem := List.mem_of_getElem? hp
  have hlist := hpart.lists p hpmem
  obtain ⟨rest0, hbytes⟩ := hlist.bytes
  obtain ⟨hpstart, hpstop⟩ := hpart.within p hpmem
  have hstop := hlist.stop_eq
  have hstop_le := hpart.stop_le
  obtain ⟨L, hoff, hr, hL⟩ := hw.lastOffset_le hpart hp
  -- the bytes from `p` on: its list, then the rest of the part
  have hfrom : (r.r).drop (p.ptr.start - r.start - r.lastOffset).toNat =
      bigEndianPutUint32 (refsOf p).length ++ (refsOf p).flatMap bigEndianPutUint32 ++
        rest0.take (stop - p.ptr.stop.toNat) := by
    rw [hr, hoff, hw.start_eq, List.drop_drop,
      show L + (p.ptr.start - start - L).toNat = p.ptr.start.toNat - start by omega,
      drop_partBytes (by omega), hbytes, List.append_assoc, List.take_append,
      List.take_of_length_le (by rw [length_bigEndianPutUint32]; omega), List.take_append,
      List.take_of_length_le (by rw [length_bigEndianPutUint32, length_flatMap_bigEndianPutUint32]; omega),
      length_bigEndianPutUint32, length_flatMap_bigEndianPutUint32,
      show stop - p.ptr.start.toNat - 4 - 4 * (refsOf p).length = stop - p.ptr.stop.toNat by omega,
      List.append_assoc]
  obtain ⟨k, hk, hnext, hsame, hafter⟩ := next_read hrf (by rw [hw.postings_eq]; exact hlen)
    hw.e_eq (by rw [hw.postings_eq]; exact hp) (by rw [hoff, hw.start_eq]; omega)
    (by
      rw [hr, hoff, hw.start_eq]
      simp only [List.length_drop, List.length_take]
      omega)
    hfrom hlist.sorted hlist.lt hlist.length_lt
  rw [hw.postings_eq] at hk hsame hafter
  refine ⟨_, hnext, ⟨hw.postings_eq, hw.e_eq, hw.start_eq, by dsimp only; omega,
    fun h => absurd h (by dsimp only; omega),
    fun _ => ⟨by dsimp only; omega, p.ptr, refsOf p, hlist, ?_, ?_, ?_, rfl, rfl, ?_⟩⟩,
    by dsimp only; omega, rfl⟩
  · -- the pointers from `p` to the last replay share its list
    intro q hq
    obtain ⟨m, hm1, hm2, hm⟩ := exists_getElem?_of_mem_slice hq
    dsimp only at hm1 hm2
    rcases Nat.eq_or_lt_of_le (show r.pi ≤ m by omega) with rfl | hlt
    · rw [hp] at hm
      cases hm
      rfl
    · refine hsame q (mem_slice_of_getElem? (r := (0, k)) (m := m - (r.pi + 1)) (Nat.zero_le _)
        (by dsimp only; omega) ?_)
      rw [List.getElem?_drop, show r.pi + 1 + (m - (r.pi + 1)) = m by omega, hm]
  · dsimp only
    rw [hw.start_eq]
    omega
  · -- the reader stands at the end of `p`'s list
    dsimp only
    have hrest : index.drop p.ptr.stop.toNat = rest0 := by
      rw [show p.ptr.stop.toNat = p.ptr.start.toNat + (4 + 4 * (refsOf p).length) by omega,
        ← List.drop_drop, hbytes, List.drop_left' (by
          rw [List.length_append, length_bigEndianPutUint32, length_flatMap_bigEndianPutUint32])]
    rw [show (p.ptr.stop - start).toNat = p.ptr.stop.toNat - start by omega,
      drop_partBytes (by omega), hrest]
  · intro q hq
    apply hafter q
    rw [List.head?_drop]
    exact hq

/-- Walking a part, the builder yields the item of every pointer it has not yet yielded, in
order, and ends with no error. -/
theorem Walking.drain (hpart : PartPtrs index refsOf ps start stop) :
    ∀ n (r : PostingsReaderBuilder), ps.length - r.pi + r.repeatFor = n →
      Walking index refsOf ps start stop r →
        ∃ r', r.drain = .ok ((ps.drop (r.pi - r.repeatFor)).map (itemOf refsOf), r') ∧
          r'.e = none := by
  intro n
  induction n using Nat.strong_induction_on with
  | _ n ih =>
    intro r hn hw
    have hle := hw.pi_le
    have hrf_le := hw.repeatFor_le
    by_cases hrf : 0 < r.repeatFor
    · -- a replay of the pointer at `pi - repeatFor`
      obtain ⟨q, hq, hgetD, hitem, hw'⟩ := hw.replay hpart hrf
      obtain ⟨r'', hd, he⟩ := ih (ps.length - r.pi + (r.repeatFor - 1)) (by omega) _ rfl hw'
      refine ⟨r'', (drain_cons (next_replay hrf) hd).trans ?_, he⟩
      obtain ⟨hlen, rfl⟩ := List.getElem?_eq_some_iff.mp hq
      dsimp only
      rw [hgetD, hitem, List.drop_eq_getElem_cons hlen, List.map_cons,
        show r.pi - (r.repeatFor - 1) = r.pi - r.repeatFor + 1 by omega]
    · by_cases hend : ps.length ≤ r.pi
      · -- every pointer read and yielded
        refine ⟨r, ?_, hw.e_eq⟩
        rw [drain_nil (next_end (by omega) (by rw [hw.postings_eq]; exact hend)),
          List.drop_eq_nil_of_le (by omega), List.map_nil]
      · -- a read of the pointer at `pi`
        have hp : ps[r.pi]? = some ps[r.pi] := List.getElem?_eq_getElem (by omega)
        obtain ⟨r', hnext, hw', hpi', hitem⟩ := hw.read_next hpart (by omega) hp
        have hle' := hw'.pi_le
        obtain ⟨r'', hd, he⟩ := ih (ps.length - r'.pi + r'.repeatFor) (by omega) r' rfl hw'
        refine ⟨r'', ?_, he⟩
        rw [drain_cons hnext hd, hitem, hpi', show r.pi - r.repeatFor = r.pi by omega,
          List.drop_eq_getElem_cons (by omega : r.pi < ps.length), List.map_cons]

end Walk

section Part

variable {index : List UInt8} {refsOf : PostingPtr → List Nat} {ptrs : List PostingPtr}

/-- The goroutine of a part over the index reads the part's bytes, and the builder over them
yields the item of every pointer of the part, in order, with no error. -/
theorem drain_part {part : Part}
    (hpart : PartPtrs index refsOf (slice ptrs part.elemRng) part.start part.stop)
    (hle : part.start ≤ part.stop) (hstop : part.stop < 2 ^ 63) :
    ∃ b r, (objectBucket index).getRange (toInt64 part.start)
        (toInt64 part.stop - toInt64 part.start) = .ok b ∧
      (newPostingsReaderBuilder b (slice ptrs part.elemRng) (toInt64 part.start)
        (toInt64 part.stop - toInt64 part.start)).drain =
          .ok ((slice ptrs part.elemRng).map (itemOf refsOf), r) ∧ r.e = none := by
  obtain ⟨r, hd, he⟩ := Walking.drain hpart _ _ rfl walking_new
  -- a new builder has read nothing: it yields from the first pointer on
  change _ = Result.ok ((slice ptrs part.elemRng).map (itemOf refsOf), r) at hd
  refine ⟨_, r, rfl, ?_, he⟩
  have hbytes : ((index.drop ((part.start : Int)).toNat).take
      ((part.stop : Int) - part.start).toNat) = (index.drop part.start).take (part.stop - part.start) := by
    rw [Int.toNat_natCast, show ((part.stop : Int) - part.start).toNat = part.stop - part.start
      by omega]
  simp only [toInt64_of_lt (Nat.lt_of_le_of_lt hle hstop), toInt64_of_lt hstop, hbytes]
  exact hd

/-- The goroutine of a part over the index sets the output of every pointer of the part, in
order, to the diff-varint postings of its list. -/
theorem fetchPostingsPart_objectBucket {part : Part}
    (hpart : PartPtrs index refsOf (slice ptrs part.elemRng) part.start part.stop)
    (hle : part.start ≤ part.stop) (hstop : part.stop < 2 ^ 63) (output : List (Option Postings)) :
    fetchPostingsPart (objectBucket index) ptrs output part =
      .ok (((slice ptrs part.elemRng).map (itemOf refsOf)).foldl
        (fun output item => output.set item.2.2 (some (.diffVarint item.1))) output) := by
  obtain ⟨b, r, hb, hd, he⟩ := drain_part hpart hle hstop
  unfold fetchPostingsPart
  simp only [hb, hd, he]

/-- Parts run one after the other, each setting the items of its pointers, set the items of
all the parts' pointers, part after part. -/
theorem foldlM_parts {β γ : Type} (f : β → Part → Result β) (items : Part → List γ)
    (g : β → γ → β) : ∀ parts : List Part, (∀ p ∈ parts, ∀ b, f b p = .ok ((items p).foldl g b)) →
      ∀ b, parts.foldlM f b = .ok ((parts.flatMap items).foldl g b)
  | [], _, _ => rfl
  | p :: parts, hparts, b => by
    rw [List.foldlM_cons, hparts p List.mem_cons_self b, List.flatMap_cons, List.foldl_append]
    exact foldlM_parts f items g parts (fun q hq => hparts q (List.mem_cons_of_mem _ hq)) _

end Part

/-! ## Setting the output -/

section SetOutput

variable {β γ : Type} (key : γ → Nat) (val : γ → β)

theorem length_foldl_set : ∀ (items : List γ) (out : List β),
    (items.foldl (fun o it => o.set (key it) (val it)) out).length = out.length
  | [], _ => rfl
  | it :: items, out => by
    rw [List.foldl_cons, length_foldl_set items, List.length_set]

/-- An index no item names keeps its value. -/
theorem getElem?_foldl_set_of_forall_ne {i : Nat} : ∀ (items : List γ) (out : List β),
    (∀ it ∈ items, key it ≠ i) →
      (items.foldl (fun o it => o.set (key it) (val it)) out)[i]? = out[i]?
  | [], _, _ => rfl
  | it :: items, out, hne => by
    rw [List.foldl_cons, getElem?_foldl_set_of_forall_ne items _
      (fun it' h => hne it' (List.mem_cons_of_mem _ h)),
      List.getElem?_set_ne (hne it List.mem_cons_self)]

/-- The only item that names an index sets it. -/
theorem getElem?_foldl_set_of_mem {it : γ} : ∀ (items : List γ) (out : List β),
    (items.map key).Nodup → it ∈ items → key it < out.length →
      (items.foldl (fun o it => o.set (key it) (val it)) out)[key it]? = some (val it)
  | [], _, _, hmem, _ => absurd hmem List.not_mem_nil
  | it' :: items, out, hnodup, hmem, hlt => by
    rw [List.map_cons, List.nodup_cons] at hnodup
    rw [List.foldl_cons]
    rcases List.mem_cons.mp hmem with rfl | hmem
    · -- the item comes first: the items after it name other indices
      rw [getElem?_foldl_set_of_forall_ne key val items _
        (fun it'' h heq => hnodup.1 (by rw [← heq]; exact List.mem_map_of_mem h)),
        List.getElem?_set_self hlt]
    · exact getElem?_foldl_set_of_mem items _ hnodup.2 hmem (by rw [List.length_set]; exact hlt)

end SetOutput

/-! ## The loop over the keys -/

section Keys

variable {K : Type} {po : K → Except String Range} {keys : List K}

/-- What the loop over the keys has built after the first `ix` keys: the empty postings for
each of them the index header does not find, nothing for the others, and one pointer for
each of the others. -/
structure KeysLoaded (po : K → Except String Range) (keys : List K) (ix : Nat)
    (output : List (Option Postings)) (ptrs : List PostingPtr) : Prop where
  length_eq : output.length = keys.length
  output_eq : ∀ j k, keys[j]? = some k →
    output[j]? = some (if j < ix ∧ po k = .error notFoundRangeErr then some .empty else none)
  ptr_of : ∀ q ∈ ptrs, q.keyID < ix ∧ ∃ k, keys[q.keyID]? = some k ∧ po k = .ok q.ptr
  of_ptr : ∀ j k rng, j < ix → keys[j]? = some k → po k = .ok rng → ⟨j, rng⟩ ∈ ptrs
  nodup : (ptrs.map PostingPtr.keyID).Nodup

theorem keysLoaded_zero : KeysLoaded po keys 0 (List.replicate keys.length none) [] where
  length_eq := List.length_replicate
  output_eq j k hk := by
    have hj : j < keys.length := (List.getElem?_eq_some_iff.mp hk).1
    simp [hj]
  ptr_of q hq := absurd hq List.not_mem_nil
  of_ptr j _ _ hj := absurd hj (Nat.not_lt_zero j)
  nodup := List.nodup_nil

/-- A key the index header does not find gets the empty postings. -/
theorem KeysLoaded.not_found {ix : Nat} {output : List (Option Postings)} {ptrs : List PostingPtr}
    {k : K} (hl : KeysLoaded po keys ix output ptrs) (hk : keys[ix]? = some k)
    (hpo : po k = .error notFoundRangeErr) :
    KeysLoaded po keys (ix + 1) (output.set ix (some .empty)) ptrs where
  length_eq := by rw [List.length_set, hl.length_eq]
  output_eq j k' hk' := by
    by_cases hj : j = ix
    · subst hj
      obtain rfl : k' = k := Option.some.inj (hk'.symm.trans hk)
      have hlt : j < output.length := by
        rw [hl.length_eq]
        exact (List.getElem?_eq_some_iff.mp hk).1
      rw [List.getElem?_set_self hlt, if_pos ⟨Nat.lt_succ_self j, hpo⟩]
    · rw [List.getElem?_set_ne (Ne.symm hj), hl.output_eq j k' hk']
      simp only [show j < ix + 1 ↔ j < ix by omega]
  ptr_of q hq := by
    obtain ⟨hlt, hq⟩ := hl.ptr_of q hq
    exact ⟨Nat.lt_succ_of_lt hlt, hq⟩
  of_ptr j k' rng hj hk' hpo' := by
    rcases Nat.lt_succ_iff_lt_or_eq.mp hj with hj | rfl
    · exact hl.of_ptr j k' rng hj hk' hpo'
    · -- the key at `ix` has no range
      obtain rfl : k' = k := Option.some.inj (hk'.symm.trans hk)
      rw [hpo] at hpo'
      cases hpo'
  nodup := hl.nodup

/-- A key the index header finds gets a pointer. -/
theorem KeysLoaded.found {ix : Nat} {output : List (Option Postings)} {ptrs : List PostingPtr}
    {k : K} {rng : Range} (hl : KeysLoaded po keys ix output ptrs) (hk : keys[ix]? = some k)
    (hpo : po k = .ok rng) :
    KeysLoaded po keys (ix + 1) output (ptrs ++ [⟨ix, rng⟩]) where
  length_eq := hl.length_eq
  output_eq j k' hk' := by
    rw [hl.output_eq j k' hk']
    by_cases hj : j = ix
    · -- neither before nor after is the key's output set
      subst hj
      obtain rfl : k' = k := Option.some.inj (hk'.symm.trans hk)
      simp [hpo]
    · simp only [show j < ix + 1 ↔ j < ix by omega]
  ptr_of q hq := by
    rcases List.mem_append.mp hq with hq | hq
    · obtain ⟨hlt, hq⟩ := hl.ptr_of q hq
      exact ⟨Nat.lt_succ_of_lt hlt, hq⟩
    · obtain rfl := List.mem_singleton.mp hq
      exact ⟨Nat.lt_succ_self ix, k, hk, hpo⟩
  of_ptr j k' rng' hj hk' hpo' := by
    rcases Nat.lt_succ_iff_lt_or_eq.mp hj with hj | rfl
    · exact List.mem_append_left _ (hl.of_ptr j k' rng' hj hk' hpo')
    · obtain rfl : k' = k := Option.some.inj (hk'.symm.trans hk)
      obtain rfl : rng' = rng := Except.ok.inj (hpo'.symm.trans hpo)
      exact List.mem_append_right _ List.mem_cons_self
  nodup := by
    rw [List.map_append, List.nodup_append]
    refine ⟨hl.nodup, List.nodup_singleton _, ?_⟩
    -- the pointers before have keys before `ix`
    intro a ha b hb
    obtain ⟨q, hq, rfl⟩ := List.mem_map.mp ha
    rw [List.map_singleton, List.mem_singleton] at hb
    subst hb
    exact Nat.ne_of_lt (hl.ptr_of q hq).1

/-- The loop over the keys from `ix` on, when the index header finds every key or reports it
missing, builds what `KeysLoaded` says of all the keys. -/
theorem fetchPostingsKeys_loaded : ∀ (ks : List K) (ix : Nat) (output : List (Option Postings))
    (ptrs : List PostingPtr), keys.drop ix = ks → KeysLoaded po keys ix output ptrs →
      (∀ k ∈ ks, po k = .error notFoundRangeErr ∨ ∃ rng, po k = .ok rng) →
        ∃ output' ptrs', fetchPostingsKeys po ks ix output ptrs = .ok (output', ptrs') ∧
          KeysLoaded po keys (ix + ks.length) output' ptrs'
  | [], ix, output, ptrs, _, hl, _ => ⟨output, ptrs, rfl, hl⟩
  | k :: ks, ix, output, ptrs, hdrop, hl, hks => by
    have hk : keys[ix]? = some k := by
      rw [← Nat.add_zero ix, ← List.getElem?_drop, hdrop]
      rfl
    have hdrop' : keys.drop (ix + 1) = ks := by
      rw [← List.drop_drop, hdrop]
      rfl
    have hks' : ∀ k ∈ ks, po k = .error notFoundRangeErr ∨ ∃ rng, po k = .ok rng :=
      fun k' hk' => hks k' (List.mem_cons_of_mem _ hk')
    have hlen : ix + (k :: ks).length = ix + 1 + ks.length := by
      rw [List.length_cons]
      omega
    rw [hlen]
    rcases hks k List.mem_cons_self with hpo | ⟨rng, hpo⟩
    · obtain ⟨output', ptrs', hrun, hl'⟩ :=
        fetchPostingsKeys_loaded ks (ix + 1) _ ptrs hdrop' (hl.not_found hk hpo) hks'
      refine ⟨output', ptrs', ?_, hl'⟩
      rw [fetchPostingsKeys, hpo]
      exact (if_pos rfl).trans hrun
    · obtain ⟨output', ptrs', hrun, hl'⟩ :=
        fetchPostingsKeys_loaded ks (ix + 1) output _ hdrop' (hl.found hk hpo) hks'
      refine ⟨output', ptrs', ?_, hl'⟩
      rw [fetchPostingsKeys, hpo]
      exact hrun

end Keys

/-! ## The sorted pointers and their parts -/

section Sorted

variable {index : List UInt8} {refsOf : PostingPtr → List Nat} {ps : List PostingPtr}

/-- The pointers `fetchPostings` partitions: each at a postings list of the index, ending
within `int64`, and sorted, equal pointers next to each other and the others apart. -/
structure SortedPtrs (index : List UInt8) (refsOf : PostingPtr → List Nat)
    (ps : List PostingPtr) : Prop where
  lists : ∀ q ∈ ps, PostingsListAt index q.ptr (refsOf q)
  stop_lt : ∀ q ∈ ps, q.ptr.stop < 2 ^ 63
  ordered : ps.Pairwise fun a b => a.ptr = b.ptr ∨ a.ptr.stop ≤ b.ptr.start

/-- The range the partitioner sees for a pointer is its range in the index. -/
theorem SortedPtrs.postingRange_eq (hs : SortedPtrs index refsOf ps) {i : Nat}
    (hi : i < ps.length) :
    postingRange ps i = (ps[i].ptr.start.toNat, ps[i].ptr.stop.toNat) := by
  have hmem := List.getElem_mem hi
  have hlist := hs.lists _ hmem
  have hlt := hs.stop_lt _ hmem
  have := hlist.start_nonneg
  have := hlist.stop_eq
  simp only [postingRange, List.getD_eq_getElem?_getD, List.getElem?_eq_getElem hi,
    Option.getD_some, toUint64, Prod.mk.injEq]
  constructor <;> omega

/-- Sorted by start. -/
theorem SortedPtrs.start_le (hs : SortedPtrs index refsOf ps) {i j : Nat} (hij : i ≤ j)
    (hj : j < ps.length) : ps[i].ptr.start ≤ ps[j].ptr.start := by
  rcases Nat.eq_or_lt_of_le hij with rfl | hij
  · exact le_refl _
  · -- equal pointers start together, and a list apart from a later one ends before it
    have hstart := (hs.lists _ (List.getElem_mem (Nat.lt_trans hij hj))).stop_eq
    rcases List.pairwise_iff_getElem.mp hs.ordered i j (Nat.lt_trans hij hj) hj hij with
      heq | hle
    · rw [heq]
    · omega

/-- A part of the sorted pointers reads every range it serves. -/
theorem SortedPtrs.part_contains (hs : SortedPtrs index refsOf ps) {g : GapBasedPartitioner}
    {p : Part} (hp : PartOf g.maxGapSize ps.length (postingRange ps) p)
    (hlen : p.elemRng.2 ≤ ps.length) {m : Nat} (hm1 : p.elemRng.1 ≤ m) (hm2 : m < p.elemRng.2) :
    p.start ≤ (postingRange ps m).1 ∧ (postingRange ps m).2 ≤ p.stop := by
  refine ⟨?_, hp.covers m hm1 hm2⟩
  have hstart := hs.start_le hm1 (by omega)
  have hnonneg := (hs.lists _ (List.getElem_mem (show p.elemRng.1 < ps.length by omega))).start_nonneg
  rw [hp.start, hs.postingRange_eq (by omega), hs.postingRange_eq (by omega)]
  dsimp only
  omega

/-- A part of the sorted pointers is a part the builder walks: its pointers lie within its
bytes, and its bytes within the index and `int64`. -/
theorem SortedPtrs.partPtrs (hs : SortedPtrs index refsOf ps) {g : GapBasedPartitioner}
    {p : Part} (hp : PartOf g.maxGapSize ps.length (postingRange ps) p)
    (hne : p.elemRng.1 < p.elemRng.2) (hlen : p.elemRng.2 ≤ ps.length) :
    PartPtrs index refsOf (slice ps p.elemRng) p.start p.stop ∧ p.start ≤ p.stop ∧
      p.stop < 2 ^ 63 := by
  obtain ⟨m, hm1, hm2, hstop⟩ := hp.eq_end
  have hmem := List.getElem_mem (show m < ps.length by omega)
  have hm := hs.postingRange_eq (show m < ps.length by omega)
  have hcontains := hs.part_contains hp hlen (Nat.le_refl _) hne
  have hrange := hs.postingRange_eq (show p.elemRng.1 < ps.length by omega)
  have hfirst := (hs.lists _ (List.getElem_mem (show p.elemRng.1 < ps.length by omega))).stop_eq
  rw [hrange] at hcontains
  dsimp only at hcontains
  refine ⟨⟨fun q hq => hs.lists q ((slice_sublist ps _).subset hq),
    hs.ordered.sublist (slice_sublist ps _), ?_, ?_⟩, by omega, ?_⟩
  · -- within: a pointer of the part is at an index the part serves
    intro q hq
    obtain ⟨i, hi1, hi2, hqi⟩ := exists_getElem?_of_mem_slice hq
    obtain ⟨hi, rfl⟩ := List.getElem?_eq_some_iff.mp hqi
    have hqc := hs.part_contains hp hlen hi1 hi2
    have hnonneg := (hs.lists _ (List.getElem_mem hi)).start_nonneg
    have hq' := (hs.lists _ (List.getElem_mem hi)).stop_eq
    rw [hs.postingRange_eq hi] at hqc
    dsimp only at hqc
    omega
  · rw [hstop, hm]
    exact (hs.lists _ hmem).stop_le_length
  · have hlt := hs.stop_lt _ hmem
    rw [hstop, hm]
    dsimp only
    omega

end Sorted

/-! ## Every key's postings -/

section Run

variable {K : Type} {index : List UInt8} {po : K → Except String Range} {refs : K → List Nat}
  {keys : List K}

/-- The index header finds a key's postings list in the index, ending within `int64`, or
reports it missing and the key has no refs. -/
def KeyPostings (index : List UInt8) (po : K → Except String Range) (refs : K → List Nat)
    (k : K) : Prop :=
  (po k = .error notFoundRangeErr ∧ refs k = []) ∨
    ∃ rng, po k = .ok rng ∧ rng.stop < 2 ^ 63 ∧ PostingsListAt index rng (refs k)

/-- The refs of the key a pointer is for. -/
def ptrRefs (keys : List K) (refs : K → List Nat) (q : PostingPtr) : List Nat :=
  (keys[q.keyID]?.map refs).getD []

/-- A pointer the loop over the keys makes is at its key's postings list. -/
theorem KeysLoaded.ptr_list {ix : Nat} {output : List (Option Postings)} {ptrs : List PostingPtr}
    (hl : KeysLoaded po keys ix output ptrs) (hkeys : ∀ k ∈ keys, KeyPostings index po refs k)
    {q : PostingPtr} (hq : q ∈ ptrs) :
    ∃ k, keys[q.keyID]? = some k ∧ po k = .ok q.ptr ∧ q.ptr.stop < 2 ^ 63 ∧
      PostingsListAt index q.ptr (ptrRefs keys refs q) := by
  obtain ⟨-, k, hk, hpo⟩ := hl.ptr_of q hq
  rcases hkeys k (List.mem_of_getElem? hk) with ⟨hnf, -⟩ | ⟨rng, hrng, hlt, hlist⟩
  · rw [hpo] at hnf
    cases hnf
  · obtain rfl : rng = q.ptr := Except.ok.inj (hrng.symm.trans hpo)
    refine ⟨k, hk, hpo, hlt, ?_⟩
    rwa [ptrRefs, hk, Option.map_some, Option.getD_some]

/-- The pointers of the keys, sorted by start, are what the partitioner and the builder
expect when the keys' lists are equal or apart. -/
theorem KeysLoaded.sortedPtrs {ix : Nat} {output : List (Option Postings)}
    {ptrs ps : List PostingPtr} (hl : KeysLoaded po keys ix output ptrs)
    (hkeys : ∀ k ∈ keys, KeyPostings index po refs k)
    (hdisjoint : ∀ k₁ ∈ keys, ∀ k₂ ∈ keys, ∀ r₁ r₂, po k₁ = .ok r₁ → po k₂ = .ok r₂ →
      r₁ = r₂ ∨ r₁.stop ≤ r₂.start ∨ r₂.stop ≤ r₁.start)
    (hperm : ps.Perm ptrs) (hsorted : ps.Pairwise fun a b => a.ptr.start ≤ b.ptr.start) :
    SortedPtrs index (ptrRefs keys refs) ps := by
  refine ⟨fun q hq => ?_, fun q hq => ?_, hsorted.imp_of_mem fun {a b} ha hb hab => ?_⟩
  · obtain ⟨-, -, -, -, hlist⟩ := hl.ptr_list hkeys (hperm.subset hq)
    exact hlist
  · obtain ⟨-, -, -, hlt, -⟩ := hl.ptr_list hkeys (hperm.subset hq)
    exact hlt
  · -- a list apart from a later-starting one cannot end before it starts
    obtain ⟨ka, hka, hpoa, -, -⟩ := hl.ptr_list hkeys (hperm.subset ha)
    obtain ⟨kb, hkb, hpob, -, hlistb⟩ := hl.ptr_list hkeys (hperm.subset hb)
    have hb_lt := hlistb.stop_eq
    rcases hdisjoint ka (List.mem_of_getElem? hka) kb (List.mem_of_getElem? hkb) _ _ hpoa hpob with
      heq | hle | hle
    · exact .inl heq
    · exact .inr hle
    · omega

/-- After the loop over the keys and the parts, the output of each key yields its refs. -/
theorem KeysLoaded.output_spec {output : List (Option Postings)} {ptrs ps : List PostingPtr}
    (hl : KeysLoaded po keys keys.length output ptrs)
    (hkeys : ∀ k ∈ keys, KeyPostings index po refs k) (hperm : ps.Perm ptrs) {i : Nat} {k : K}
    (hk : keys[i]? = some k) :
    ∃ P, ((ps.map (itemOf (ptrRefs keys refs))).foldl
        (fun output item => output.set item.2.2 (some (.diffVarint item.1))) output)[i]? =
          some (some P) ∧
      P.expand = refs k ∧ (po k = .error notFoundRangeErr → P = .empty) := by
  have hi : i < keys.length := (List.getElem?_eq_some_iff.mp hk).1
  rcases hkeys k (List.mem_of_getElem? hk) with ⟨hpo, hrefs⟩ | ⟨rng, hpo, -, hlist⟩
  · -- a missing key: no pointer sets its output
    refine ⟨.empty, ?_, hrefs.symm, fun _ => rfl⟩
    rw [getElem?_foldl_set_of_forall_ne (fun item : List UInt8 × Nat × Nat => item.2.2)
      (fun item => some (Postings.diffVarint item.1)), hl.output_eq i k hk, if_pos ⟨hi, hpo⟩]
    intro it hit heq
    obtain ⟨q, hq, rfl⟩ := List.mem_map.mp hit
    obtain ⟨-, k', hk', hpo'⟩ := hl.ptr_of q (hperm.subset hq)
    rw [show q.keyID = i from heq, hk] at hk'
    cases hk'
    rw [hpo] at hpo'
    cases hpo'
  · -- a found key: its one pointer sets its output
    have hmem : (⟨i, rng⟩ : PostingPtr) ∈ ps := hperm.symm.subset (hl.of_ptr i k rng hi hk hpo)
    have hnodup : ((ps.map (itemOf (ptrRefs keys refs))).map fun item => item.2.2).Nodup := by
      rw [List.map_map]
      exact (hperm.map PostingPtr.keyID).nodup_iff.mpr hl.nodup
    have hrefs : ptrRefs keys refs ⟨i, rng⟩ = refs k := by
      rw [ptrRefs, hk, Option.map_some, Option.getD_some]
    refine ⟨.diffVarint (encodeDiffVarint 0 (refs k)), ?_, ?_, fun h => by rw [hpo] at h; cases h⟩
    · have hset := getElem?_foldl_set_of_mem (fun item : List UInt8 × Nat × Nat => item.2.2)
        (fun item => some (Postings.diffVarint item.1)) _ output hnodup
        (List.mem_map_of_mem hmem) (by rw [hl.length_eq]; exact hi)
      rw [itemOf, hrefs] at hset
      exact hset
    · exact expand_encodeDiffVarint (refs k) 0 (fun _ _ => Nat.zero_le _) hlist.sorted
        (fun x hx => Nat.lt_trans (hlist.lt x hx) (by norm_num))

/-- With an index cache that misses, keys whose postings lists the index header finds in the
index or reports missing, lists that are equal or apart, any `sort.Slice` by start and any
`maxGapSize`, `fetchPostings` sets the output of each key to postings yielding exactly the
refs of its list, the empty postings for a missing key. On the way, the parts of the sorted
pointers serve them in order and read every range they serve, and the builder over a part
yields one item for each of its pointers, in order, with that pointer's key and the
diff-varint encoding of its list. -/
theorem fetchPostings_yields_refs (index : List UInt8) (po : K → Except String Range)
    (refs : K → List Nat) (keys : List K) (hkeys : ∀ k ∈ keys, KeyPostings index po refs k)
    (hdisjoint : ∀ k₁ ∈ keys, ∀ k₂ ∈ keys, ∀ r₁ r₂, po k₁ = .ok r₁ → po k₂ = .ok r₂ →
      r₁ = r₂ ∨ r₁.stop ≤ r₂.start ∨ r₂.stop ≤ r₁.start)
    (sortSlice : List PostingPtr → List PostingPtr)
    (hsort : ∀ ptrs, (sortSlice ptrs).Perm ptrs ∧
      (sortSlice ptrs).Pairwise fun a b => a.ptr.start ≤ b.ptr.start)
    (g : GapBasedPartitioner) :
    (∃ output, fetchPostings po sortSlice g (objectBucket index) keys = .ok output ∧
      output.length = keys.length ∧
      ∀ (i : Nat) k, keys[i]? = some k → ∃ P : Postings, output[i]? = some (some P) ∧
        P.expand = refs k ∧ (po k = .error notFoundRangeErr → P = .empty)) ∧
    ∃ output₀ ptrs ps,
      fetchPostingsKeys po keys 0 (List.replicate keys.length none) [] = .ok (output₀, ptrs) ∧
      ps = sortSlice ptrs ∧
      Tiles 0 ((g.partition ps.length (postingRange ps)).map Part.elemRng) ps.length ∧
      ∀ p ∈ g.partition ps.length (postingRange ps),
        (∀ m, p.elemRng.1 ≤ m → m < p.elemRng.2 →
          p.start ≤ (postingRange ps m).1 ∧ (postingRange ps m).2 ≤ p.stop) ∧
        ∃ b r, (objectBucket index).getRange (toInt64 p.start)
            (toInt64 p.stop - toInt64 p.start) = .ok b ∧
          (newPostingsReaderBuilder b (slice ps p.elemRng) (toInt64 p.start)
            (toInt64 p.stop - toInt64 p.start)).drain =
              .ok ((slice ps p.elemRng).map (itemOf (ptrRefs keys refs)), r) ∧ r.e = none := by
  have hres : ∀ k ∈ keys, po k = .error notFoundRangeErr ∨ ∃ rng, po k = .ok rng := by
    intro k hk
    rcases hkeys k hk with ⟨hpo, -⟩ | ⟨rng, hpo, -⟩
    · exact .inl hpo
    · exact .inr ⟨rng, hpo⟩
  obtain ⟨output₀, ptrs, hrunKeys, hl⟩ :=
    fetchPostingsKeys_loaded keys 0 _ [] List.drop_zero keysLoaded_zero hres
  rw [Nat.zero_add] at hl
  obtain ⟨hperm, hsorted⟩ := hsort ptrs
  have hsp := hl.sortedPtrs hkeys hdisjoint hperm hsorted
  set ps := sortSlice ptrs with hps
  set parts := g.partition ps.length (postingRange ps) with hparts_def
  obtain ⟨htiles, hparts⟩ := partition_spec g ps.length (postingRange ps)
  have hpart : ∀ p ∈ parts, PartPtrs index (ptrRefs keys refs) (slice ps p.elemRng) p.start p.stop ∧
      p.start ≤ p.stop ∧ p.stop < 2 ^ 63 := fun p hp => by
    obtain ⟨-, hne, hle⟩ := htiles.bounds p.elemRng (List.mem_map_of_mem hp)
    exact hsp.partPtrs (hparts p hp) hne hle
  -- the goroutines of the parts, one after the other, set the items of all the pointers
  have hrunParts : parts.foldlM (fetchPostingsPart (objectBucket index) ps) output₀ =
      .ok ((ps.map (itemOf (ptrRefs keys refs))).foldl
        (fun output item => output.set item.2.2 (some (.diffVarint item.1))) output₀) := by
    rw [foldlM_parts _ (fun p => (slice ps p.elemRng).map (itemOf (ptrRefs keys refs))) _ parts
      (fun p hp b => fetchPostingsPart_objectBucket (hpart p hp).1 (hpart p hp).2.1
        (hpart p hp).2.2 b) output₀, ← List.map_flatMap,
      show parts.flatMap (fun p => slice ps p.elemRng) = (parts.map Part.elemRng).flatMap (slice ps)
        by rw [List.flatMap_map],
      htiles.flatMap_slice ps]
    simp [slice]
  refine ⟨⟨_, ?_, ?_, fun i k hk => hl.output_spec hkeys hperm hk⟩,
    output₀, ptrs, ps, hrunKeys, rfl, htiles, fun p hp => ⟨fun m hm1 hm2 => ?_, ?_⟩⟩
  · rw [fetchPostings, hrunKeys]
    exact hrunParts
  · rw [length_foldl_set, hl.length_eq]
  · obtain ⟨-, -, hle⟩ := htiles.bounds p.elemRng (List.mem_map_of_mem hp)
    exact hsp.part_contains (hparts p hp) hle hm1 hm2
  · exact drain_part (hpart p hp).1 (hpart p hp).2.1 (hpart p hp).2.2

/-- Two postings lists, `[1, 5]` at `[0, 12)` and `[7]` at `[12, 20)`. -/
def twoListsIndex : List UInt8 :=
  bigEndianPutUint32 2 ++ bigEndianPutUint32 1 ++ bigEndianPutUint32 5 ++
    bigEndianPutUint32 1 ++ bigEndianPutUint32 7

/-- Key `0` at the first list, key `2` at the second, the others missing. -/
def twoListsOffset (k : Nat) : Except String Range :=
  if k = 0 then .ok ⟨0, 12⟩ else if k = 2 then .ok ⟨12, 20⟩ else .error notFoundRangeErr

def twoListsRefs (k : Nat) : List Nat :=
  if k = 0 then [1, 5] else if k = 2 then [7] else []

/-- The keys `0, 1, 0, 2` (one missing, one asked for twice), sorted by insertion, with no gap
allowed between the parts. -/
theorem fetchPostings_yields_refs_two_lists :
    (∀ k ∈ [0, 1, 0, 2], KeyPostings twoListsIndex twoListsOffset twoListsRefs k) ∧
    (∀ k₁ ∈ [0, 1, 0, 2], ∀ k₂ ∈ [0, 1, 0, 2], ∀ r₁ r₂, twoListsOffset k₁ = .ok r₁ →
      twoListsOffset k₂ = .ok r₂ → r₁ = r₂ ∨ r₁.stop ≤ r₂.start ∨ r₂.stop ≤ r₁.start) ∧
    ∃ output, fetchPostings twoListsOffset
        (List.insertionSort fun a b : PostingPtr => a.ptr.start ≤ b.ptr.start) ⟨0⟩
        (objectBucket twoListsIndex) [0, 1, 0, 2] = .ok output ∧
      output.length = 4 ∧
      ∀ (i : Nat) k, [0, 1, 0, 2][i]? = some k → ∃ P : Postings, output[i]? = some (some P) ∧
        P.expand = twoListsRefs k ∧ (twoListsOffset k = .error notFoundRangeErr → P = .empty) := by
  have hkeys : ∀ k ∈ [0, 1, 0, 2], KeyPostings twoListsIndex twoListsOffset twoListsRefs k := by
    intro k hk
    simp only [List.mem_cons, List.not_mem_nil, or_false] at hk
    rcases hk with rfl | rfl | rfl | rfl
    · exact .inr ⟨⟨0, 12⟩, rfl, by decide, ⟨le_refl _, by decide,
        ⟨bigEndianPutUint32 1 ++ bigEndianPutUint32 7, rfl⟩, by decide, by decide, by decide⟩⟩
    · exact .inl ⟨rfl, rfl⟩
    · exact .inr ⟨⟨0, 12⟩, rfl, by decide, ⟨le_refl _, by decide,
        ⟨bigEndianPutUint32 1 ++ bigEndianPutUint32 7, rfl⟩, by decide, by decide, by decide⟩⟩
    · exact .inr ⟨⟨12, 20⟩, rfl, by decide, ⟨by decide, by decide, ⟨[], rfl⟩, by decide,
        by decide, by decide⟩⟩
  have hdisjoint : ∀ k₁ ∈ [0, 1, 0, 2], ∀ k₂ ∈ [0, 1, 0, 2], ∀ r₁ r₂,
      twoListsOffset k₁ = .ok r₁ → twoListsOffset k₂ = .ok r₂ →
        r₁ = r₂ ∨ r₁.stop ≤ r₂.start ∨ r₂.stop ≤ r₁.start := by
    intro k₁ _ k₂ _ r₁ r₂ h₁ h₂
    have hr : ∀ k r, twoListsOffset k = .ok r → r = ⟨0, 12⟩ ∨ r = ⟨12, 20⟩ := by
      intro k r h
      unfold twoListsOffset at h
      split_ifs at h <;> cases h <;> simp
    rcases hr k₁ r₁ h₁ with rfl | rfl <;> rcases hr k₂ r₂ h₂ with rfl | rfl <;> decide
  have : Std.Total fun a b : PostingPtr => a.ptr.start ≤ b.ptr.start :=
    ⟨fun a b => le_total a.ptr.start b.ptr.start⟩
  have : IsTrans PostingPtr fun a b => a.ptr.start ≤ b.ptr.start :=
    ⟨fun _ _ _ hab hbc => le_trans hab hbc⟩
  exact ⟨hkeys, hdisjoint, (fetchPostings_yields_refs twoListsIndex twoListsOffset twoListsRefs
    [0, 1, 0, 2] hkeys hdisjoint _
    (fun ptrs => ⟨List.perm_insertionSort _ ptrs, List.pairwise_insertionSort _ ptrs⟩) ⟨0⟩).1⟩

end Run

end Thanos.Store
