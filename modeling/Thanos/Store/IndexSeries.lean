import Thanos.Go.Binary
import Mathlib.Data.List.Chain

/-! # Decoding a series entry of the index for a time range

`decodeSeriesForTime` reads a series entry of the TSDB index: the label count and the
symbol references of every label, then the chunk count and the chunk metas. The first
chunk's minimum time is a signed varint, every later one a delta from the previous
chunk's maximum time; maximum times are deltas from their chunk's minimum time; the first
reference is absolute and the later ones signed deltas. The decoder keeps the chunks that
overlap `[selectMint, selectMaxt]` and stops at the first chunk that starts after
`selectMaxt`; with `skipChunks` it only says whether there is one.

`encodeSeries` writes an entry as Prometheus' index writer does; `decodeSeriesForTime_filters`
reads any entry of chunks sorted by time back as its labels and the chunks in the
range. The `int64` arithmetic of both sides wraps (`GoBinary.wrapInt64`). -/

namespace Thanos.Store

open GoBinary

/-- `symbolizedLabel`: the symbol references of a label's name and value. -/
structure SymbolizedLabel where
  name : UInt32
  value : UInt32
  deriving DecidableEq, Repr

/-- `chunks.Meta` as the decoder fills it: the reference and the time range. -/
structure ChunkMeta where
  ref : UInt64
  minTime : Int
  maxTime : Int
  deriving DecidableEq, Repr

/-- What `decodeSeriesForTime` returns: the labels, the chunk metas, `ok` and the error. -/
structure DecodedSeries where
  lset : List SymbolizedLabel
  chks : List ChunkMeta
  ok : Bool
  err : Option String
  deriving DecidableEq, Repr

/-- `uint32(x)` of a Go `int`. -/
def toUint32 (x : Int) : UInt32 := (x % 2 ^ 32).toNat.toUInt32

/-- The label loop: `k` pairs of symbol references. -/
def labelsLoop : Nat → Decbuf → List SymbolizedLabel → Decbuf × List SymbolizedLabel
  | 0, d, lset => (d, lset)
  | k + 1, d, lset =>
    let lno := d.uvarint'
    let lvo := lno.1.uvarint'
    labelsLoop k lvo.1 (lset ++ [⟨toUint32 lno.2, toUint32 lvo.2⟩])

/-- The reads at the top of the chunk loop: none for the first chunk, whose values were
read before the loop, and for a later one the deltas of its times and of its reference. -/
def readChunkMeta (first : Bool) (d : Decbuf) (mint maxt ref : Int) : Decbuf × Int × Int × Int :=
  if first then (d, mint, maxt, ref)
  else
    let r1 := d.uvarint64
    let mint' := wrapInt64 (mint + toInt64 r1.2)
    let r2 := r1.1.uvarint64
    let maxt' := wrapInt64 (toInt64 r2.2 + mint')
    let r3 := r2.1.varint64
    (r3.1, mint', maxt', wrapInt64 (ref + r3.2))

theorem readChunkMeta_true (d : Decbuf) (mint maxt ref : Int) :
    readChunkMeta true d mint maxt ref = (d, mint, maxt, ref) := rfl

/-- The chunk loop, with the chunks still to read, whether the next is the first one, the
buffer, the running `mint`, `maxt` and `ref`, and the chunks kept. It answers the chunks
kept, the buffer and whether `skipChunks` returned at a chunk in the range. -/
def chunksLoop (skipChunks : Bool) (selectMint selectMaxt : Int) :
    Nat → Bool → Decbuf → Int → Int → Int → List ChunkMeta → List ChunkMeta × Decbuf × Bool
  | 0, _, d, _, _, _, chks => (chks, d, false)
  | k + 1, first, d, mint, maxt, ref, chks =>
    match readChunkMeta first d mint maxt ref with
    | (d', mint', maxt', ref') =>
      if mint' > selectMaxt then (chks, d', false)
      else if maxt' ≥ selectMint then
        if skipChunks then (chks, d', true)
        else
          -- `mint = maxt` at the end of the body
          chunksLoop skipChunks selectMint selectMaxt k false d' maxt' maxt' ref'
            (chks ++ [⟨(toUint64 ref').toUInt64, mint', maxt'⟩])
      else chunksLoop skipChunks selectMint selectMaxt k false d' maxt' maxt' ref' chks

/-- `decodeSeriesForTime`. -/
def decodeSeriesForTime (b : List UInt8) (skipChunks : Bool) (selectMint selectMaxt : Int) :
    DecodedSeries :=
  let d : Decbuf := ⟨b, none⟩
  let k := d.uvarint'
  let labels := labelsLoop k.2.toNat k.1 []
  let k' := labels.1.uvarint'
  if k'.2 = 0 then ⟨labels.2, [], false, k'.1.e⟩
  else
    -- the first chunk: absolute minimum time and reference
    let mint := k'.1.varint64
    let maxt := mint.1.uvarint64
    let ref := maxt.1.uvarint64
    let r := chunksLoop skipChunks selectMint selectMaxt k'.2.toNat true ref.1 mint.2
      (wrapInt64 (toInt64 maxt.2 + mint.2)) (toInt64 ref.2) []
    if r.2.2 then ⟨labels.2, [], true, none⟩
    else ⟨labels.2, r.1, decide (r.1.length > 0), r.2.1.e⟩

/-- `bucketIndexReader.LoadSeriesForTime`, over the series the reader has loaded. -/
def loadSeriesForTime (loadedSeries : List (Nat × List UInt8)) (ref : Nat) (skipChunks : Bool)
    (mint maxt : Int) : DecodedSeries :=
  match loadedSeries.lookup ref with
  | none => ⟨[], [], false, some s!"series {ref} not found"⟩
  | some b => decodeSeriesForTime b skipChunks mint maxt

/-! ## The entries of the index writer -/

/-- The later chunks of an entry, after the chunk that ended at `t0` with reference `ref0`. -/
def encodeChunksTail : Int → Int → List ChunkMeta → List UInt8
  | _, _, [] => []
  | t0, ref0, c :: cs =>
    putUvarint (toUint64 (c.minTime - t0)) ++ putUvarint (toUint64 (c.maxTime - c.minTime)) ++
      putVarint (wrapInt64 (toInt64 c.ref.toNat - ref0)) ++
        encodeChunksTail c.maxTime (toInt64 c.ref.toNat) cs

/-- A series entry as the index writer's `AddSeries` encodes it. -/
def encodeSeries (lset : List SymbolizedLabel) (chks : List ChunkMeta) : List UInt8 :=
  putUvarint lset.length ++
    lset.flatMap (fun l => putUvarint l.name.toNat ++ putUvarint l.value.toNat) ++
      putUvarint chks.length ++
        match chks with
        | [] => []
        | c :: cs =>
          putVarint c.minTime ++ putUvarint (toUint64 (c.maxTime - c.minTime)) ++
            putUvarint c.ref.toNat ++ encodeChunksTail c.maxTime (toInt64 c.ref.toNat) cs

/-- The chunk metas an entry can hold: `int64` times with the maximum not before the
minimum, and each chunk starting no earlier than the previous one ends. -/
structure ValidChunks (chks : List ChunkMeta) : Prop where
  times : ∀ c ∈ chks, IsInt64 c.minTime ∧ IsInt64 c.maxTime ∧ c.minTime ≤ c.maxTime
  sorted : chks.IsChain fun c c' => c.maxTime ≤ c'.minTime

/-- The chunks that overlap `[selectMint, selectMaxt]`. -/
def InRange (selectMint selectMaxt : Int) (c : ChunkMeta) : Bool :=
  decide (c.minTime ≤ selectMaxt ∧ selectMint ≤ c.maxTime)

namespace ValidChunks

variable {c c' : ChunkMeta} {cs : List ChunkMeta}

theorem tail (h : ValidChunks (c :: cs)) : ValidChunks cs where
  times c' hc' := h.times c' (List.mem_cons_of_mem c hc')
  sorted := h.sorted.tail

theorem head (h : ValidChunks (c :: cs)) :
    IsInt64 c.minTime ∧ IsInt64 c.maxTime ∧ c.minTime ≤ c.maxTime :=
  h.times c List.mem_cons_self

theorem maxTime_le (h : ValidChunks (c :: c' :: cs)) : c.maxTime ≤ c'.minTime :=
  (List.isChain_cons_cons.mp h.sorted).1

end ValidChunks

/-! ## Reading an entry back -/

section Decode

variable {skipChunks : Bool} {selectMint selectMaxt : Int}

theorem toUint32_toInt64 (n : UInt32) : toUint32 (toInt64 n.toNat) = n := by
  have hn := n.toNat_lt
  rw [toUint32, toInt64_of_lt (by omega), Int.emod_eq_of_lt (by omega) (by omega),
    Int.toNat_natCast]
  simp

/-- The meta the decoder builds from a chunk's values is the chunk. -/
theorem chunkMeta_of_decoded (c : ChunkMeta) :
    (⟨(toUint64 (toInt64 c.ref.toNat)).toUInt64, c.minTime, c.maxTime⟩ : ChunkMeta) = c := by
  rw [toUint64_toInt64 c.ref.toNat_lt]
  simp

theorem labelsLoop_encode (lset acc : List SymbolizedLabel) (rest : List UInt8) :
    labelsLoop lset.length
        ⟨lset.flatMap (fun l => putUvarint l.name.toNat ++ putUvarint l.value.toNat) ++ rest,
          none⟩ acc =
      (⟨rest, none⟩, acc ++ lset) := by
  induction lset generalizing acc with
  | nil => simp [labelsLoop]
  | cons l ls ih =>
    have hname : l.name.toNat < 2 ^ 64 := by have := l.name.toNat_lt; omega
    have hvalue : l.value.toNat < 2 ^ 64 := by have := l.value.toNat_lt; omega
    simp only [List.length_cons, List.flatMap_cons, List.append_assoc, labelsLoop]
    rw [Decbuf.uvarint'_putUvarint hname, Decbuf.uvarint'_putUvarint hvalue, ih]
    simp [toUint32_toInt64]

/-- A chunk's maximum time from its minimum time and the delta the writer wrote. -/
theorem maxTime_of_delta {c : ChunkMeta} (hc : IsInt64 c.maxTime) :
    wrapInt64 (toInt64 (toUint64 (c.maxTime - c.minTime)) + c.minTime) = c.maxTime := by
  rw [add_comm]
  exact wrapInt64_add_toInt64_toUint64 hc

/-- The reads of a later chunk give back its times and its reference: each delta is taken
from the value before it, and the wrapped sums undo the wrapped differences. -/
theorem readChunkMeta_encodeChunksTail {p c : ChunkMeta} (cs : List ChunkMeta)
    (rest : List UInt8) (m : Int) (hc : IsInt64 c.minTime ∧ IsInt64 c.maxTime) :
    readChunkMeta false
        ⟨encodeChunksTail p.maxTime (toInt64 p.ref.toNat) (c :: cs) ++ rest, none⟩ p.maxTime m
          (toInt64 p.ref.toNat) =
      (⟨encodeChunksTail c.maxTime (toInt64 c.ref.toNat) cs ++ rest, none⟩, c.minTime,
        c.maxTime, toInt64 c.ref.toNat) := by
  have hmin : wrapInt64 (p.maxTime + toInt64 (toUint64 (c.minTime - p.maxTime))) = c.minTime :=
    wrapInt64_add_toInt64_toUint64 hc.1
  have hmax := maxTime_of_delta hc.2
  have href : wrapInt64 (toInt64 p.ref.toNat +
      wrapInt64 (toInt64 c.ref.toNat - toInt64 p.ref.toNat)) = toInt64 c.ref.toNat :=
    wrapInt64_add_wrapInt64_sub (isInt64_toInt64 c.ref.toNat_lt)
  simp only [readChunkMeta, encodeChunksTail, List.append_assoc, Bool.false_eq_true, if_false]
  rw [Decbuf.uvarint64_putUvarint (toUint64_lt _), Decbuf.uvarint64_putUvarint (toUint64_lt _),
    Decbuf.varint64_putVarint (isInt64_wrapInt64 _)]
  simp only [hmin, hmax, href]

/-- After a chunk that starts past `selectMaxt`, no sorted chunk is in the range: this is
why the loop may `break` there. -/
theorem not_inRange_of_lt_minTime {c : ChunkMeta} {cs : List ChunkMeta}
    (hvalid : ValidChunks (c :: cs)) (h : selectMaxt < c.minTime) :
    ∀ c' ∈ c :: cs, ¬InRange selectMint selectMaxt c' = true := by
  induction cs generalizing c with
  | nil =>
    intro c' hc'
    obtain rfl := List.mem_singleton.mp hc'
    simp [InRange]
    omega
  | cons c₁ cs ih =>
    intro c' hc'
    rcases List.mem_cons.mp hc' with rfl | hc'
    · simp [InRange]
      omega
    · have hle := hvalid.maxTime_le
      have hc := hvalid.head.2.2
      exact ih hvalid.tail (by omega) c' hc'

/-- One turn of the chunk loop at a chunk whose values were read correctly, given what the
rest of the loop does from the next chunk on. -/
theorem chunksLoop_step {c : ChunkMeta} {cs : List ChunkMeta} {first : Bool} {d d' : Decbuf}
    {mint maxt ref : Int} (chks : List ChunkMeta) (hvalid : ValidChunks (c :: cs))
    (hread : readChunkMeta first d mint maxt ref = (d', c.minTime, c.maxTime, toInt64 c.ref.toNat))
    (hd' : d'.e = none)
    (htail : ∀ acc, ∃ d'' : Decbuf, d''.e = none ∧
      chunksLoop skipChunks selectMint selectMaxt cs.length false d' c.maxTime c.maxTime
          (toInt64 c.ref.toNat) acc =
        (if skipChunks then acc else acc ++ cs.filter (InRange selectMint selectMaxt), d'',
          skipChunks && cs.any (InRange selectMint selectMaxt))) :
    ∃ d'' : Decbuf, d''.e = none ∧
      chunksLoop skipChunks selectMint selectMaxt (cs.length + 1) first d mint maxt ref chks =
        (if skipChunks then chks else chks ++ (c :: cs).filter (InRange selectMint selectMaxt),
          d'', skipChunks && (c :: cs).any (InRange selectMint selectMaxt)) := by
  rw [chunksLoop, hread]
  by_cases hbreak : c.minTime > selectMaxt
  · -- the loop stops at `c`, and no chunk from `c` on is in the range
    have hout : ∀ c' ∈ c :: cs, ¬InRange selectMint selectMaxt c' = true :=
      not_inRange_of_lt_minTime hvalid hbreak
    refine ⟨d', hd', ?_⟩
    simp [hbreak, List.filter_eq_nil_iff.mpr hout, List.any_eq_false.mpr hout]
  · by_cases hin : c.maxTime ≥ selectMint
    · have hc : InRange selectMint selectMaxt c = true := by
        simp only [InRange, decide_eq_true_eq]
        omega
      cases skipChunks with
      | true => exact ⟨d', hd', by simp [hbreak, hin, hc]⟩
      | false =>
        obtain ⟨d'', hd'', h⟩ := htail (chks ++ [c])
        refine ⟨d'', hd'', ?_⟩
        simp [hbreak, hin, chunkMeta_of_decoded, h, hc]
    · have hc : InRange selectMint selectMaxt c = false := by
        simp only [InRange, decide_eq_false_iff_not]
        omega
      obtain ⟨d'', hd'', h⟩ := htail chks
      exact ⟨d'', hd'', by simp [hbreak, hin, h, hc]⟩

/-- The loop over the later chunks of an entry, after the chunk `p`. -/
theorem chunksLoop_encodeChunksTail (p : ChunkMeta) (cs : List ChunkMeta)
    (hvalid : ValidChunks (p :: cs)) (rest : List UInt8) (m : Int) (acc : List ChunkMeta) :
    ∃ d : Decbuf, d.e = none ∧
      chunksLoop skipChunks selectMint selectMaxt cs.length false
          ⟨encodeChunksTail p.maxTime (toInt64 p.ref.toNat) cs ++ rest, none⟩ p.maxTime m
          (toInt64 p.ref.toNat) acc =
        (if skipChunks then acc else acc ++ cs.filter (InRange selectMint selectMaxt), d,
          skipChunks && cs.any (InRange selectMint selectMaxt)) := by
  induction cs generalizing p m acc with
  | nil => exact ⟨⟨rest, none⟩, rfl, by simp [chunksLoop, encodeChunksTail]⟩
  | cons c cs ih =>
    have hc := hvalid.tail.head
    exact chunksLoop_step acc hvalid.tail
      (readChunkMeta_encodeChunksTail cs rest m ⟨hc.1, hc.2.1⟩) rfl
      (fun acc' => ih c hvalid.tail c.maxTime acc')

theorem any_eq_decide_filter_ne_nil {α : Type} (p : α → Bool) (l : List α) :
    l.any p = decide (l.filter p ≠ []) := by
  rw [Bool.eq_iff_iff, List.any_eq_true, decide_eq_true_iff, Ne, List.filter_eq_nil_iff]
  simp

/-- The loop from the first chunk of an entry, whose values were read before the loop. -/
theorem chunksLoop_encode (c : ChunkMeta) (cs : List ChunkMeta) (hvalid : ValidChunks (c :: cs))
    (rest : List UInt8) :
    ∃ d : Decbuf, d.e = none ∧
      chunksLoop skipChunks selectMint selectMaxt (cs.length + 1) true
          ⟨encodeChunksTail c.maxTime (toInt64 c.ref.toNat) cs ++ rest, none⟩ c.minTime c.maxTime
          (toInt64 c.ref.toNat) [] =
        (if skipChunks then [] else (c :: cs).filter (InRange selectMint selectMaxt), d,
          skipChunks && (c :: cs).any (InRange selectMint selectMaxt)) := by
  obtain ⟨d, hd, h⟩ := chunksLoop_step [] hvalid (readChunkMeta_true _ _ _ _) rfl
    (fun acc => chunksLoop_encodeChunksTail c cs hvalid rest c.maxTime acc)
  exact ⟨d, hd, by simpa using h⟩

end Decode

theorem decodeSeriesForTime_filters (lset : List SymbolizedLabel) (chks : List ChunkMeta)
    (hlset : lset.length < 2 ^ 63) (hchks : chks.length < 2 ^ 63) (hvalid : ValidChunks chks)
    (rest : List UInt8) (skipChunks : Bool) (selectMint selectMaxt : Int) :
    decodeSeriesForTime (encodeSeries lset chks ++ rest) skipChunks selectMint selectMaxt =
      ⟨lset, if skipChunks then [] else chks.filter (InRange selectMint selectMaxt),
        decide (chks.filter (InRange selectMint selectMaxt) ≠ []), none⟩ := by
  simp only [decodeSeriesForTime, encodeSeries, List.append_assoc]
  rw [Decbuf.uvarint'_putUvarint (by omega), toInt64_of_lt hlset, Int.toNat_natCast,
    labelsLoop_encode, Decbuf.uvarint'_putUvarint (by omega), toInt64_of_lt hchks]
  cases chks with
  | nil => simp
  | cons c cs =>
    -- the first chunk: its minimum time, the delta to its maximum time and its reference
    have hc := hvalid.head
    simp only [List.append_assoc]
    rw [Decbuf.varint64_putVarint hc.1, Decbuf.uvarint64_putUvarint (toUint64_lt _),
      Decbuf.uvarint64_putUvarint c.ref.toNat_lt, maxTime_of_delta hc.2.1]
    obtain ⟨d, hd, h⟩ := @chunksLoop_encode skipChunks selectMint selectMaxt c cs hvalid rest
    have hk : ((cs.length + 1 : Nat) : Int) ≠ 0 := by omega
    simp only [List.length_cons, Int.toNat_natCast, h, hk, if_false, any_eq_decide_filter_ne_nil]
    cases skipChunks with
    | false => simp [hd, List.length_pos_iff]
    | true =>
      by_cases hne : (c :: cs).filter (InRange selectMint selectMaxt) = []
      · simp only [hne, ne_eq, not_true_eq_false, decide_false]
        simp [hd]
      · simp only [hne, ne_eq, not_false_eq_true, decide_true]
        simp

/-- An entry of two chunks read for a window that keeps the second one only. -/
theorem decodeSeriesForTime_filters_two_chunks :
    ValidChunks [⟨5, 0, 10⟩, ⟨7, 10, 20⟩] ∧
      decodeSeriesForTime (encodeSeries [⟨1, 2⟩] [⟨5, 0, 10⟩, ⟨7, 10, 20⟩] ++ []) false 15 30 =
        ⟨[⟨1, 2⟩], [⟨7, 10, 20⟩], true, none⟩ := by
  have hvalid : ValidChunks [⟨5, 0, 10⟩, ⟨7, 10, 20⟩] := ⟨by decide, by decide⟩
  refine ⟨hvalid, ?_⟩
  rw [decodeSeriesForTime_filters _ _ (by decide) (by decide) hvalid]
  decide

end Thanos.Store
