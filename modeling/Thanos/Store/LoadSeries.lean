import Thanos.Go.Binary
import Thanos.Store.CachingBucket
import Thanos.Store.Partitioner

/-! # Preloading series entries from the index

`bucketIndexReader.PreloadSeries` reads the series entries of a block's index (a uvarint
length, then that many bytes) for a sorted list of ids, the entries' offsets. It gives each
id the range `[id, id + estimatedMaxSeriesSize)`, coalesces the ranges with the
partitioner, reads each part in one `GetRange`, and `loadSeries` slices every entry out of
the part's bytes. An entry longer than the part fetches itself once more, with a call of
`loadSeries` on the ids left that reads just the entry and one byte.

`loadSeries` and its loop are total: each refetch either shortens the ids or turns
`refetch` on, and a refetch with `refetch` on ends with an error at its first entry.

The index cache's `FetchMultiSeries` is a parameter; its `StoreSeries`, the bytes limiter
(taken as unlimited), the stats and the metrics other than `seriesRefetches` are left out.
The parts' goroutines run one after the other, in the order of the parts, and the first
error ends the run. -/

namespace Thanos.Store

open GoBinary Cache RangeTiling

/-- `bucketBlock.readIndexRange`: all the bytes of the range reader of the index. -/
def readIndexRange (bkt : Bucket) (off length : Int) : Except String (List UInt8) :=
  match bkt.getRange off length with
  | .error err => .error ("get range reader: " ++ err)
  | .ok b => .ok b

/-- `a - b` of `uint64`s. -/
def subU64 (a b : Nat) : Nat := (a + 2 ^ 64 - b) % 2 ^ 64

/-- What loading leaves behind: the writes `r.loadedSeries[id] = c` in order, and the
`seriesRefetches` counter. -/
structure SeriesLoad where
  loadedSeries : List (Nat × List UInt8)
  seriesRefetches : Nat
  deriving DecidableEq, Repr

mutual

/-- `bucketIndexReader.loadSeries`: read `[start, end)` of the index and slice the entries
of `ids` out of it. -/
def loadSeries (bkt : Bucket) (ids : List Nat) (refetch : Bool) (start stop : Nat)
    (st : SeriesLoad) : Result SeriesLoad :=
  match readIndexRange bkt (toInt64 start) (toInt64 (subU64 stop start)) with
  | .error err => .error ("read series range: " ++ err)
  | .ok b => loadSeriesLoop bkt refetch start b 0 ids st
termination_by 3 * ids.length + if refetch then 1 else 3
decreasing_by cases refetch <;> simp

/-- The loop of `loadSeries` over its ids from the `i`-th on, `b` the bytes read. -/
def loadSeriesLoop (bkt : Bucket) (refetch : Bool) (start : Nat) (b : List UInt8) (i : Nat)
    (ids : List Nat) (st : SeriesLoad) : Result SeriesLoad :=
  match ids with
  | [] => .ok st
  | id :: rest =>
    -- `b[uint64(id)-start:]`
    if b.length < subU64 id start then .panic "runtime error: slice bounds out of range"
    else
      let c := b.drop (subU64 id start)
      let l := (uvarint c).1
      let n := (uvarint c).2
      if n < 1 then .error "reading series length failed"
      else
        -- `n+int(l)`
        let size := wrapInt64 (n + toInt64 l)
        if (c.length : Int) < size then
          if i = 0 ∧ refetch = true then
            let remaining := c.length
            .error s!"invalid remaining size, even after refetch, remaining: {remaining}, expected {size}"
          else
            -- fetch the entry and one byte more, for the ids left
            loadSeries bkt (id :: rest) true id ((id + toUint64 (wrapInt64 (size + 1))) % 2 ^ 64)
              { st with seriesRefetches := st.seriesRefetches + 1 }
        else if size < n then .panic "runtime error: slice bounds out of range"
        else
          loadSeriesLoop bkt refetch start b (i + 1) rest
            { st with loadedSeries := st.loadedSeries ++ [(id, (c.drop n.toNat).take (size - n).toNat)] }
termination_by 3 * ids.length + if i = 0 ∧ refetch = true then 0 else 2
decreasing_by
  all_goals simp only [List.length_cons]
  all_goals cases refetch <;> simp_all <;> omega

end

/-- The range `PreloadSeries` gives the `i`-th id: `estimatedMaxSeriesSize` bytes from it. -/
def seriesRange (ids : List Nat) (estimatedMaxSeriesSize : Int) (i : Nat) : Nat × Nat :=
  (ids.getD i 0, (ids.getD i 0 + toUint64 estimatedMaxSeriesSize) % 2 ^ 64)

/-- `bucketIndexReader.PreloadSeries`, with the index cache's `FetchMultiSeries`: the entries
it holds and the ids it misses. -/
def preloadSeries (bkt : Bucket) (partitioner : GapBasedPartitioner)
    (estimatedMaxSeriesSize : Int)
    (fetchMultiSeries : List Nat → List (Nat × List UInt8) × List Nat) (ids : List Nat) :
    Result SeriesLoad :=
  let fromCache := (fetchMultiSeries ids).1
  let ids := (fetchMultiSeries ids).2
  (partitioner.partition ids.length (seriesRange ids estimatedMaxSeriesSize)).foldlM
    (fun st p => loadSeries bkt (slice ids p.elemRng) false p.start p.stop st) ⟨fromCache, 0⟩

/-! ## Reading one entry -/

/-- The index holds the series entry `payload` at offset `id`: its uvarint length, then the
payload. -/
def EntryAt (index : List UInt8) (id : Nat) (payload : List UInt8) : Prop :=
  ∃ rest, index.drop id = putUvarint payload.length ++ payload ++ rest

/-- The bytes of a series entry. -/
def entrySize (payload : List UInt8) : Nat := (putUvarint payload.length).length + payload.length

section Entry

variable {index : List UInt8} {id : Nat} {payload : List UInt8}

theorem one_le_length_putUvarint (x : Nat) : 1 ≤ (putUvarint x).length :=
  List.length_pos_iff.mpr (putUvarint_ne_nil x)

theorem EntryAt.le_length (h : EntryAt index id payload) : id + entrySize payload ≤ index.length := by
  obtain ⟨rest, h⟩ := h
  have hlen := congrArg List.length h
  have hone := one_le_length_putUvarint payload.length
  simp only [List.length_drop, List.length_append] at hlen
  unfold entrySize
  omega

/-- The first `k` bytes from an entry hold its length as soon as they hold its uvarint. -/
theorem uvarint_take_entryAt (h : EntryAt index id payload) (hidx : index.length < 2 ^ 63) {k : Nat}
    (hk : (putUvarint payload.length).length ≤ k) :
    uvarint ((index.drop id).take k) =
      (payload.length, ((putUvarint payload.length).length : Int)) := by
  have hsize := h.le_length
  obtain ⟨rest, h⟩ := h
  rw [h, List.append_assoc, List.take_append, List.take_of_length_le hk]
  exact uvarint_putUvarint (by unfold entrySize at hsize; omega) _

/-- And its payload as soon as they hold the whole entry. -/
theorem payload_take_entryAt (h : EntryAt index id payload) {k : Nat} (hk : entrySize payload ≤ k) :
    (((index.drop id).take k).drop (putUvarint payload.length).length).take payload.length =
      payload := by
  obtain ⟨rest, h⟩ := h
  unfold entrySize at hk
  rw [h, List.append_assoc, List.take_append,
    List.take_of_length_le (by omega : (putUvarint payload.length).length ≤ k), List.drop_left,
    List.take_take, Nat.min_eq_left (by omega), List.take_left' rfl]

theorem length_take_entryAt (h : EntryAt index id payload) (k : Nat) :
    min k (entrySize payload) ≤ ((index.drop id).take k).length := by
  have := h.le_length
  simp only [List.length_take, List.length_drop]
  omega

end Entry

theorem subU64_of_le {a b : Nat} (hle : b ≤ a) (ha : a < 2 ^ 64) : subU64 a b = a - b := by
  unfold subU64
  rw [show a + 2 ^ 64 - b = a - b + 2 ^ 64 by omega, Nat.add_mod_right, Nat.mod_eq_of_lt (by omega)]

/-- A bucket holding the index returns the range asked for, cut at the end of the index. -/
theorem readIndexRange_objectBucket (index : List UInt8) {start stop : Nat} (hle : start ≤ stop)
    (hstop : stop < 2 ^ 63) :
    readIndexRange (objectBucket index) (toInt64 start) (toInt64 (subU64 stop start)) =
      .ok ((index.drop start).take (stop - start)) := by
  rw [subU64_of_le hle (by omega), toInt64_of_lt (by omega), toInt64_of_lt (by omega)]
  simp only [readIndexRange, objectBucket, Int.toNat_natCast]

/-! ## The steps of the loop -/

section Step

variable {bkt : Bucket} {refetch : Bool} {start : Nat} {b : List UInt8} {i id : Nat}
  {rest : List Nat} {st : SeriesLoad} {l n : Nat}

theorem wrapInt64_size (hsize : n + l < 2 ^ 63) : wrapInt64 ((n : Int) + toInt64 l) = n + l := by
  rw [toInt64_of_lt (by omega), wrapInt64_of_isInt64 ⟨by omega, by omega⟩]

/-- An entry that fits in the bytes read is stored, and the loop goes on. -/
theorem loadSeriesLoop_cons_store (hoff : subU64 id start ≤ b.length)
    (huv : uvarint (b.drop (subU64 id start)) = (l, (n : Int))) (hn : 1 ≤ n)
    (hsize : n + l < 2 ^ 63) (hfit : n + l ≤ (b.drop (subU64 id start)).length) :
    loadSeriesLoop bkt refetch start b i (id :: rest) st =
      loadSeriesLoop bkt refetch start b (i + 1) rest
        { st with
          loadedSeries := st.loadedSeries ++ [(id, ((b.drop (subU64 id start)).drop n).take l)] } := by
  rw [loadSeriesLoop]
  simp only [huv, wrapInt64_size hsize]
  rw [if_neg (by omega), if_neg (by omega), if_neg (by omega), if_neg (by omega)]
  simp

/-- An entry whose length the bytes read hold but not its payload is fetched again with the
ids left, unless it is the first of a refetch. -/
theorem loadSeriesLoop_cons_refetch (hoff : subU64 id start ≤ b.length)
    (huv : uvarint (b.drop (subU64 id start)) = (l, (n : Int))) (hn : 1 ≤ n)
    (hsize : id + n + l + 1 < 2 ^ 63) (hshort : (b.drop (subU64 id start)).length < n + l)
    (hfirst : ¬(i = 0 ∧ refetch = true)) :
    loadSeriesLoop bkt refetch start b i (id :: rest) st =
      loadSeries bkt (id :: rest) true id (id + (n + l + 1))
        { st with seriesRefetches := st.seriesRefetches + 1 } := by
  rw [loadSeriesLoop]
  simp only [huv, wrapInt64_size (by omega : n + l < 2 ^ 63)]
  rw [if_neg (by omega), if_neg (by omega), if_pos (by omega), if_neg hfirst]
  have hend : toUint64 ((n : Int) + l + 1) = n + l + 1 := by
    unfold toUint64
    omega
  rw [wrapInt64_of_isInt64 ⟨by omega, by omega⟩, hend, Nat.mod_eq_of_lt (by omega)]

end Step

/-! ## Loading the entries of one part -/

section Part

variable {index : List UInt8}

/-- The refetch of an entry reads it whole, and one byte more, and stores it. -/
theorem loadSeries_refetched {id : Nat} {payload : List UInt8} (h : EntryAt index id payload)
    (hidx : index.length + 1 < 2 ^ 63) (st : SeriesLoad) :
    loadSeries (objectBucket index) [id] true id (id + (entrySize payload + 1)) st =
      .ok { st with loadedSeries := st.loadedSeries ++ [(id, payload)] } := by
  have hle := h.le_length
  have hone := one_le_length_putUvarint payload.length
  rw [loadSeries, readIndexRange_objectBucket index (by omega) (by omega)]
  dsimp only
  rw [show id + (entrySize payload + 1) - id = entrySize payload + 1 by omega]
  have hoff : subU64 id id = 0 := by
    rw [subU64_of_le (Nat.le_refl _) (by omega), Nat.sub_self]
  have hfit := length_take_entryAt h (entrySize payload + 1)
  rw [loadSeriesLoop_cons_store (by rw [hoff]; exact Nat.zero_le _)
    (by rw [hoff, List.drop_zero]; exact uvarint_take_entryAt h (by omega) (by unfold entrySize; omega))
    hone (by unfold entrySize at hle; omega)
    (by rw [hoff, List.drop_zero]; unfold entrySize at hfit ⊢; omega),
    hoff, List.drop_zero, payload_take_entryAt h (by omega), loadSeriesLoop]

/-- Over the entries of a part, each within `[start, stop)` with its `est` bytes and with
its uvarint within them, the loop stores every entry's payload, with at most one refetch:
only the last entry can reach past `stop`. -/
theorem loadSeriesLoop_entries (hidx : index.length + 1 < 2 ^ 63) {est start stop : Nat}
    (hest : 1 ≤ est) (hstop : stop < 2 ^ 63) :
    ∀ (es : List (Nat × List UInt8)) (i : Nat) (st : SeriesLoad),
      (∀ e ∈ es, EntryAt index e.1 e.2 ∧ start ≤ e.1 ∧ e.1 + est ≤ stop ∧
        (putUvarint e.2.length).length ≤ est) →
      es.Pairwise (fun a b => a.1 + entrySize a.2 ≤ b.1) →
      ∃ r ≤ 1, loadSeriesLoop (objectBucket index) false start
        ((index.drop start).take (stop - start)) i (es.map Prod.fst) st =
          .ok ⟨st.loadedSeries ++ es, st.seriesRefetches + r⟩
  | [], i, st, _, _ => ⟨0, Nat.zero_le _, by simp [loadSeriesLoop]⟩
  | e :: es, i, st, hes, hpw => by
    obtain ⟨he, hstart, hend, hpre⟩ := hes e List.mem_cons_self
    have hle := he.le_length
    have hone := one_le_length_putUvarint e.2.length
    -- the bytes from the entry on are the index's, up to `stop`
    have hc : ((index.drop start).take (stop - start)).drop (subU64 e.1 start) =
        (index.drop e.1).take (stop - e.1) := by
      rw [subU64_of_le hstart (by omega), List.drop_take, List.drop_drop,
        Nat.add_sub_cancel' hstart, show stop - start - (e.1 - start) = stop - e.1 by omega]
    have hoff : subU64 e.1 start ≤ ((index.drop start).take (stop - start)).length := by
      rw [subU64_of_le hstart (by omega)]
      simp only [List.length_take, List.length_drop]
      omega
    have huv := uvarint_take_entryAt he (by omega) (k := stop - e.1) (by omega)
    rw [← hc] at huv
    have hlen := length_take_entryAt he (stop - e.1)
    rw [← hc] at hlen
    rw [List.map_cons]
    by_cases hfit : entrySize e.2 ≤ (((index.drop start).take (stop - start)).drop
        (subU64 e.1 start)).length
    · -- the entry fits: stored, and the loop goes on
      rw [loadSeriesLoop_cons_store hoff huv hone (by unfold entrySize at hle; omega) hfit, hc,
        payload_take_entryAt he (by rw [hc] at hfit; simp only [List.length_take] at hfit; omega)]
      obtain ⟨r, hr, hrun⟩ := loadSeriesLoop_entries hidx hest hstop es (i + 1) _
        (fun e' he' => hes e' (List.mem_cons_of_mem _ he')) (List.pairwise_cons.mp hpw).2
      exact ⟨r, hr, by rw [hrun]; simp⟩
    · -- it does not: it is the last entry, as the next one starts within the part
      cases es with
      | cons e' es' =>
        obtain ⟨he', -, hend', -⟩ := hes e' (List.mem_cons_of_mem _ List.mem_cons_self)
        have hapart := (List.pairwise_cons.mp hpw).1 e' List.mem_cons_self
        exact absurd (by omega) hfit
      | nil =>
        rw [loadSeriesLoop_cons_refetch hoff huv hone (by unfold entrySize at hle; omega)
          (by unfold entrySize at hfit; omega) (by simp), List.map_nil,
          show (putUvarint e.2.length).length + e.2.length = entrySize e.2 from rfl]
        exact ⟨1, Nat.le_refl _, by rw [loadSeries_refetched he hidx]⟩

/-- Series entries of an index, in order of offset and apart. -/
structure SeriesEntries (index : List UInt8) (entries : List (Nat × List UInt8)) : Prop where
  at_offset : ∀ e ∈ entries, EntryAt index e.1 e.2
  apart : entries.Pairwise fun a b => a.1 + entrySize a.2 ≤ b.1

variable {entries : List (Nat × List UInt8)}

theorem SeriesEntries.le_of_le (hent : SeriesEntries index entries) {j m : Nat} (hjm : j ≤ m)
    {a b : Nat × List UInt8} (ha : entries[j]? = some a) (hb : entries[m]? = some b) :
    a.1 ≤ b.1 := by
  obtain ⟨hj, rfl⟩ := List.getElem?_eq_some_iff.mp ha
  obtain ⟨hm, rfl⟩ := List.getElem?_eq_some_iff.mp hb
  rcases Nat.eq_or_lt_of_le hjm with rfl | hlt
  · exact Nat.le_refl _
  · have := List.pairwise_iff_getElem.mp hent.apart j m hj hm hlt
    omega

theorem seriesRange_of_getElem? {est m : Nat} {e : Nat × List UInt8} (he : entries[m]? = some e) :
    seriesRange (entries.map Prod.fst) est m = (e.1, (e.1 + est) % 2 ^ 64) := by
  simp only [seriesRange, List.getD_eq_getElem?_getD, List.getElem?_map, he, Option.map_some,
    Option.getD_some, toUint64, Prod.mk.injEq, true_and]
  omega

/-- `loadSeries` over one part of `PreloadSeries` stores the part's entries, with at most one
refetch. -/
theorem loadSeries_part (hent : SeriesEntries index entries) {est : Nat} (hest : 1 ≤ est)
    (hidx : index.length + est < 2 ^ 63)
    (hpre : ∀ e ∈ entries, (putUvarint e.2.length).length ≤ est) {maxGapSize : Nat} {p : Part}
    (hp : PartOf maxGapSize entries.length (seriesRange (entries.map Prod.fst) est) p)
    (hlt : p.elemRng.1 < p.elemRng.2) (hle : p.elemRng.2 ≤ entries.length) (st : SeriesLoad) :
    ∃ r ≤ 1, loadSeries (objectBucket index) (slice (entries.map Prod.fst) p.elemRng) false
      p.start p.stop st = .ok ⟨st.loadedSeries ++ slice entries p.elemRng, st.seriesRefetches + r⟩ := by
  -- the entry of each element of the part, and its offset within the index
  have hget : ∀ m < entries.length, ∃ e, entries[m]? = some e ∧ e.1 < index.length := by
    intro m hm
    refine ⟨entries[m], List.getElem?_eq_getElem hm, ?_⟩
    have := (hent.at_offset _ (List.getElem_mem hm)).le_length
    have := one_le_length_putUvarint entries[m].2.length
    unfold entrySize at *
    omega
  obtain ⟨a, ha, hai⟩ := hget p.elemRng.1 (by omega)
  have hstart : p.start = a.1 := by rw [hp.start, seriesRange_of_getElem? ha]
  have hcover : ∀ m e, p.elemRng.1 ≤ m → m < p.elemRng.2 → entries[m]? = some e →
      e.1 + est ≤ p.stop := by
    intro m e hm1 hm2 he
    have hc := hp.covers m hm1 hm2
    obtain ⟨-, hei⟩ := hget m (by omega)
    rw [seriesRange_of_getElem? he, Nat.mod_eq_of_lt (by
      obtain ⟨e', he', hei'⟩ := hget m (by omega)
      rw [he] at he'
      cases he'
      omega)] at hc
    exact hc
  have hstop : p.stop < 2 ^ 63 := by
    obtain ⟨m, hm1, hm2, heq⟩ := hp.eq_end
    obtain ⟨e, he, hei⟩ := hget m (by omega)
    rw [heq, seriesRange_of_getElem? he]
    exact lt_of_le_of_lt (Nat.mod_le _ _) (by omega)
  have hsa := hcover _ a (Nat.le_refl _) hlt ha
  rw [loadSeries, readIndexRange_objectBucket index (by omega) hstop, slice_map]
  dsimp only
  refine loadSeriesLoop_entries (by omega) hest hstop _ 0 st ?_
    ((hent.apart).sublist (slice_sublist _ _))
  intro e he
  obtain ⟨m, hm1, hm2, hme⟩ := exists_getElem?_of_mem_slice he
  exact ⟨hent.at_offset e ((slice_sublist _ _).subset he),
    hstart ▸ hent.le_of_le hm1 ha hme, hcover m e hm1 hm2 hme,
    hpre e ((slice_sublist _ _).subset he)⟩

/-- Loading part after part adds each part's entries, with at most one refetch for each. -/
theorem foldlM_loadSeries (f : SeriesLoad → Part → Result SeriesLoad) :
    ∀ (ps : List Part), (∀ p ∈ ps, ∀ st, ∃ r ≤ 1,
        f st p = .ok ⟨st.loadedSeries ++ slice entries p.elemRng, st.seriesRefetches + r⟩) →
      ∀ st, ∃ st', ps.foldlM f st = .ok st' ∧
        st'.loadedSeries = st.loadedSeries ++ (ps.map Part.elemRng).flatMap (slice entries) ∧
        st'.seriesRefetches ≤ st.seriesRefetches + ps.length
  | [], _, st => ⟨st, rfl, by simp, by simp⟩
  | p :: ps, hps, st => by
    obtain ⟨r, hr, hp⟩ := hps p List.mem_cons_self st
    obtain ⟨st', hrun, hloaded, hrefetches⟩ :=
      foldlM_loadSeries f ps (fun q hq => hps q (List.mem_cons_of_mem _ hq)) _
    refine ⟨st', ?_, ?_, ?_⟩
    · rw [List.foldlM_cons, hp]
      exact hrun
    · rw [hloaded, List.map_cons, List.flatMap_cons, List.append_assoc]
    · simp only [List.length_cons] at hrefetches ⊢
      omega

end Part

/-- With an index cache that misses, every estimate at least the length of each entry's
uvarint, and indexes and estimates whose sums stay below `2 ^ 63`, `PreloadSeries` of the
offsets of series entries stores every entry's payload under its offset, in order, with at
most one refetch per part. -/
theorem preloadSeries_loads_entries (index : List UInt8) (entries : List (Nat × List UInt8))
    (hent : SeriesEntries index entries) (g : GapBasedPartitioner) (est : Nat) (hest : 1 ≤ est)
    (hidx : index.length + est < 2 ^ 63)
    (hpre : ∀ e ∈ entries, (putUvarint e.2.length).length ≤ est) :
    ∃ st, preloadSeries (objectBucket index) g est (fun ids => ([], ids)) (entries.map Prod.fst) =
        .ok st ∧ st.loadedSeries = entries ∧
      st.seriesRefetches ≤ (g.partition entries.length (seriesRange (entries.map Prod.fst) est)).length := by
  obtain ⟨htiles, hparts⟩ := partition_spec g entries.length (seriesRange (entries.map Prod.fst) est)
  obtain ⟨st, hrun, hloaded, hrefetches⟩ := @foldlM_loadSeries entries
    (fun st p => loadSeries (objectBucket index) (slice (entries.map Prod.fst) p.elemRng) false
      p.start p.stop st) _
    (fun p hp st => by
      obtain ⟨-, hlt, hle⟩ := htiles.bounds p.elemRng (List.mem_map_of_mem hp)
      exact loadSeries_part hent hest hidx hpre (hparts p hp) hlt hle st) ⟨[], 0⟩
  refine ⟨st, ?_, ?_, by simpa using hrefetches⟩
  · simp only [preloadSeries, List.length_map]
    exact hrun
  · rw [hloaded, htiles.flatMap_slice]
    simp [slice]

/-- An estimate shorter than an entry's uvarint cuts the length itself: with one byte per
id, the entry at offset 0 with 128 bytes of payload, whose length takes two bytes, reads as
the bytes `0x80` alone, and `PreloadSeries` fails instead of fetching it again. -/
theorem preloadSeries_cut_length_fails :
    EntryAt (putUvarint 128 ++ List.replicate 128 0) 0 (List.replicate 128 0) ∧
      preloadSeries (objectBucket (putUvarint 128 ++ List.replicate 128 0)) ⟨0⟩ 1
        (fun ids => ([], ids)) [0] = .error "reading series length failed" := by
  have hput : putUvarint 128 = [0x80, 0x01] := by
    rw [putUvarint_of_le (by norm_num), putUvarint_of_lt (by norm_num)]
    rfl
  refine ⟨⟨[], by simp⟩, ?_⟩
  rw [hput]
  have hparts : (GapBasedPartitioner.mk 0).partition [0].length (seriesRange [0] 1) =
      [⟨0, 1, (0, 1)⟩] := by
    decide
  have hread : readIndexRange (objectBucket ([0x80, 0x01] ++ List.replicate 128 0)) (toInt64 0)
      (toInt64 (subU64 1 0)) = .ok [0x80] := by
    decide
  have hload : loadSeries (objectBucket ([0x80, 0x01] ++ List.replicate 128 0)) [0] false 0 1
      ⟨[], 0⟩ = .error "reading series length failed" := by
    rw [loadSeries, hread]
    dsimp only
    rw [loadSeriesLoop]
    decide
  simp only [preloadSeries]
  rw [hparts, List.foldlM_cons]
  dsimp only
  rw [show slice ([0] : List Nat) (0, 1) = [0] from rfl, hload]
  rfl

end Thanos.Store
