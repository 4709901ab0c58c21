import Thanos.Store.ChunkReader

/-! # `load` populates every requested chunk

The requests filed by `addLoads`, sorted per segment file, partitioned and walked part by
part, are populated one after the other (`loadLoop_populateEach`), in an order that is a
permutation of the requests (`perm_loadOrder_addLoads`). With every place asked for once
and every chunk populating, the order does not matter: each place ends up with its chunk
populated and every other place is left as it was (`populateEach_spec`).

The walk needs `estimatedMaxChunkSize` to cover each chunk's uvarint. With a smaller one,
`load` fails on a valid chunk whose length takes more bytes than it reads
(`load_cut_length_fails`). -/

namespace Thanos.Store

open GoBinary Cache RangeTiling Downsample.AggrBytes

/-- The chunk at `res[seriesEntry].chks[chunk]`. -/
def slotOf (res : List (List AggrChunk)) (seriesEntry chunk : Nat) : Option AggrChunk :=
  res[seriesEntry]?.bind (·[chunk]?)

/-- Running the steps of two lists one after the other. -/
theorem foldlM_result_append {β γ : Type} (f : β → γ → Result β) :
    ∀ (l₁ l₂ : List γ) (b : β),
      (l₁ ++ l₂).foldlM f b = (l₁.foldlM f b >>= fun b' => l₂.foldlM f b')
  | [], _, _ => rfl
  | a :: l₁, l₂, b => by
    rw [List.cons_append, List.foldlM_cons, List.foldlM_cons]
    cases f b a with
    | ok b₁ => exact foldlM_result_append f l₁ l₂ b₁
    | error err => rfl
    | panic msg => rfl

section Populate

variable {aggrs : List Aggr} {calculateChecksum : Bool}

/-- Populating a place that holds a chunk changes that place and no other. -/
theorem populateAt_ok {res : List (List AggrChunk)} {se c : Nat} {raw : List UInt8}
    {out out' : AggrChunk} (hslot : slotOf res se c = some out)
    (hpop : populateChunk out raw aggrs calculateChecksum = .ok out') :
    ∃ res', populateAt res se c raw aggrs calculateChecksum = .ok res' ∧
      slotOf res' se c = some out' ∧
      ∀ se' c', (se', c') ≠ (se, c) → slotOf res' se' c' = slotOf res se' c' := by
  unfold slotOf at hslot
  obtain ⟨chks, hchks, hout⟩ := Option.bind_eq_some_iff.mp hslot
  have hse : se < res.length := (List.getElem?_eq_some_iff.mp hchks).1
  have hc : c < chks.length := (List.getElem?_eq_some_iff.mp hout).1
  refine ⟨res.set se (chks.set c out'), ?_, ?_, ?_⟩
  · simp only [populateAt, hchks, hout, hpop]
  · simp only [slotOf, List.getElem?_set_self hse, Option.bind_some, List.getElem?_set_self hc]
  · intro se' c' hne
    simp only [slotOf, List.getElem?_set]
    by_cases hse' : se = se'
    · subst hse'
      have hc' : c ≠ c' := fun h => hne (by rw [h])
      simp only [if_true, if_pos hse, Option.bind_some, hchks, List.getElem?_set_ne hc']
    · simp only [if_neg hse']

variable {chunkAt : Nat → Nat → RawChunk}

/-- With every place asked for once and every chunk populating, `populateEach` populates
each place asked for with its chunk and leaves every other place as it was, whatever the
order of the requests. -/
theorem populateEach_spec : ∀ (rs : List (Nat × LoadIdx)) (res : List (List AggrChunk)),
    (rs.map fun r => (r.2.seriesEntry, r.2.chunk)).Nodup →
    (∀ r ∈ rs, ∃ out out', slotOf res r.2.seriesEntry r.2.chunk = some out ∧
      populateChunk out ((chunkAt r.1 r.2.offset).encoding :: (chunkAt r.1 r.2.offset).bytes)
        aggrs calculateChecksum = .ok out') →
    ∃ res', populateEach chunkAt aggrs calculateChecksum res rs = .ok res' ∧
      (∀ r ∈ rs, ∃ out out', slotOf res r.2.seriesEntry r.2.chunk = some out ∧
        populateChunk out ((chunkAt r.1 r.2.offset).encoding :: (chunkAt r.1 r.2.offset).bytes)
          aggrs calculateChecksum = .ok out' ∧
        slotOf res' r.2.seriesEntry r.2.chunk = some out') ∧
      ∀ se c, (∀ r ∈ rs, (r.2.seriesEntry, r.2.chunk) ≠ (se, c)) →
        slotOf res' se c = slotOf res se c
  | [], res, _, _ => ⟨res, rfl, fun _ h => absurd h List.not_mem_nil, fun _ _ _ => rfl⟩
  | r :: rs, res, hnodup, hpop => by
    rw [List.map_cons, List.nodup_cons] at hnodup
    have hne : ∀ r' ∈ rs, (r'.2.seriesEntry, r'.2.chunk) ≠ (r.2.seriesEntry, r.2.chunk) :=
      fun r' hr' heq => hnodup.1 (heq ▸ List.mem_map_of_mem hr')
    obtain ⟨out, out', hslot, hout⟩ := hpop r List.mem_cons_self
    obtain ⟨res₁, hrun₁, hslot₁, hother₁⟩ := populateAt_ok hslot hout
    -- the places of the later requests are not the first one's
    obtain ⟨res', hrun, hdone, hother⟩ := populateEach_spec rs res₁ hnodup.2 (fun r' hr' => by
      rw [hother₁ _ _ (hne r' hr')]
      exact hpop r' (List.mem_cons_of_mem _ hr'))
    refine ⟨res', ?_, ?_, ?_⟩
    · simp only [populateEach, List.foldlM_cons] at hrun ⊢
      rw [hrun₁]
      exact hrun
    · intro r' hr'
      rcases List.mem_cons.mp hr' with rfl | hr'
      · exact ⟨out, out', hslot, hout, by rw [hother _ _ hne, hslot₁]⟩
      · obtain ⟨o, o', hs, ho, hs'⟩ := hdone r' hr'
        exact ⟨o, o', by rw [← hother₁ _ _ (hne r' hr'), hs], ho, hs'⟩
    · intro se c hsc
      rw [hother se c (fun r' hr' => hsc r' (List.mem_cons_of_mem _ hr')),
        hother₁ se c (fun h => hsc r List.mem_cons_self h.symm)]

end Populate

/-! ## Parts and segment files -/

/-- The order `load` populates the requests in: segment file by segment file, the requests of
each sorted. -/
def loadOrder (sortSlice : List LoadIdx → List LoadIdx) : Nat → List (List LoadIdx) →
    List (Nat × LoadIdx)
  | _, [] => []
  | seq, pIdxs :: toLoad => (sortSlice pIdxs).map (seq, ·) ++ loadOrder sortSlice (seq + 1) toLoad

/-- The sorted requests of one segment file `seg`: chunks of the file, in order and apart,
each with its uvarint within `est` bytes. -/
structure SortedChunks (seg : List UInt8) (chunkAt : Nat → RawChunk) (est : Nat)
    (ps : List LoadIdx) : Prop where
  chunks : ∀ q ∈ ps, ChunkAt seg q.offset (chunkAt q.offset)
  apart : ps.Pairwise fun a b => a.offset + chunkSize (chunkAt a.offset) + 4 ≤ b.offset
  uvarint_le : ∀ q ∈ ps, (putUvarint (chunkAt q.offset).bytes.length).length ≤ est
  offset_lt : ∀ q ∈ ps, q.offset < 2 ^ 32

section Parts

variable {segs : List Bucket} {seq est : Nat} {seg : List UInt8}
  {chunkAt : Nat → Nat → RawChunk} {aggrs : List Aggr} {calculateChecksum : Bool}

theorem chunkRangeReader_objectBucket (hseg : segs[seq]? = some (objectBucket seg))
    {start stop : Nat} (hle : start ≤ stop) (hstop : stop < 2 ^ 63) :
    chunkRangeReader segs seq (toInt64 start) (toInt64 (subU64 stop start)) =
      .ok ((seg.drop start).take (stop - start)) := by
  rw [subU64_of_le hle (by omega), toInt64_of_lt (by omega), toInt64_of_lt (by omega)]
  simp only [chunkRangeReader, hseg, objectBucket, Int.toNat_natCast]

/-- The goroutine of a part populates the part's chunks in turn. -/
theorem loadChunks_part (hseg : segs[seq]? = some (objectBucket seg))
    (hsmall : seg.length < 2 ^ 63) (hest : 1 ≤ est) {p : Part} {q : LoadIdx} {qs : List LoadIdx}
    (hpart : PartChunks seg (chunkAt seq) est (q :: qs) p.stop) (hstart : p.start = q.offset)
    (hle : p.start ≤ p.stop) (hstop : p.stop < 2 ^ 63) (res : List (List AggrChunk)) :
    loadChunks segs est seq aggrs calculateChecksum p (q :: qs) res =
      populateEach chunkAt aggrs calculateChecksum res ((q :: qs).map (seq, ·)) := by
  unfold loadChunks
  rw [chunkRangeReader_objectBucket hseg hle hstop]
  dsimp only
  rw [hstart] at hle ⊢
  exact loadChunksLoop_part hseg hsmall hest _ _ _ res hpart
    (fun _ h => Nat.le_of_eq (congrArg LoadIdx.offset (Option.some.inj h))) List.length_replicate

/-- The range the partitioner sees for a request is its offset and `est` bytes after it. -/
theorem chunkRange_of_lt {ps : List LoadIdx} {m : Nat} (hm : m < ps.length)
    (hoff : ps[m].offset < 2 ^ 32) (hest : est + 2 ^ 32 ≤ 2 ^ 63) :
    chunkRange ps est m = (ps[m].offset, ps[m].offset + est) := by
  simp only [chunkRange, List.getD_eq_getElem?_getD, List.getElem?_eq_getElem hm, Option.getD_some,
    Prod.mk.injEq, true_and]
  exact Nat.mod_eq_of_lt (by omega)

/-- A part of a segment file's sorted requests is a part the loop walks: it starts at its
first chunk, and each chunk's `est` bytes lie within it, all within `int64`. -/
theorem SortedChunks.part {ps : List LoadIdx} (hs : SortedChunks seg (chunkAt seq) est ps)
    (hest : est + 2 ^ 32 ≤ 2 ^ 63) {g : GapBasedPartitioner} {p : Part}
    (hp : PartOf g.maxGapSize ps.length (chunkRange ps est) p) (hne : p.elemRng.1 < p.elemRng.2)
    (hlen : p.elemRng.2 ≤ ps.length) :
    ∃ q qs, slice ps p.elemRng = q :: qs ∧ PartChunks seg (chunkAt seq) est (q :: qs) p.stop ∧
      p.start = q.offset ∧ p.start ≤ p.stop ∧ p.stop < 2 ^ 63 := by
  have hfirst : p.elemRng.1 < ps.length := by omega
  have hrange : ∀ m (hm : m < ps.length), chunkRange ps est m = (ps[m].offset, ps[m].offset + est) :=
    fun m hm => chunkRange_of_lt hm (hs.offset_lt _ (List.getElem_mem hm)) hest
  have hslice : slice ps p.elemRng = ps[p.elemRng.1] :: slice ps (p.elemRng.1 + 1, p.elemRng.2) := by
    simp only [slice]
    rw [List.drop_eq_getElem_cons hfirst, show p.elemRng.2 - p.elemRng.1 =
      p.elemRng.2 - (p.elemRng.1 + 1) + 1 by omega, List.take_succ_cons]
  have hsub : ∀ q ∈ slice ps p.elemRng, q ∈ ps := fun q hq => (slice_sublist ps _).subset hq
  have hcovers : ∀ q ∈ slice ps p.elemRng, q.offset + est ≤ p.stop := by
    intro q hq
    obtain ⟨m, hm1, hm2, hqm⟩ := exists_getElem?_of_mem_slice hq
    obtain ⟨hm, rfl⟩ := List.getElem?_eq_some_iff.mp hqm
    have := hp.covers m hm1 hm2
    rwa [hrange m hm] at this
  have hstart : p.start = ps[p.elemRng.1].offset := by
    rw [hp.start, hrange _ hfirst]
  obtain ⟨m, hm1, hm2, hstop⟩ := hp.eq_end
  have hstop' : p.stop = ps[m].offset + est := by
    rw [hstop, hrange m (by omega)]
  have hoff := hs.offset_lt _ (List.getElem_mem (show m < ps.length by omega))
  have hfirstc := hcovers _ (by rw [hslice]; exact List.mem_cons_self)
  refine ⟨_, _, hslice, ?_, hstart, by omega, by omega⟩
  rw [← hslice]
  exact ⟨fun q hq => hs.chunks q (hsub q hq), hs.apart.sublist (slice_sublist ps _), hcovers,
    fun q hq => hs.uvarint_le q (hsub q hq), fun q hq => hs.offset_lt q (hsub q hq)⟩

end Parts

section Loop

variable {segs : List Bucket} {sortSlice : List LoadIdx → List LoadIdx} {g : GapBasedPartitioner}
  {est : Nat} {chunkAt : Nat → Nat → RawChunk} {aggrs : List Aggr} {calculateChecksum : Bool}

theorem populateEach_append (res : List (List AggrChunk)) (rs₁ rs₂ : List (Nat × LoadIdx)) :
    populateEach chunkAt aggrs calculateChecksum res (rs₁ ++ rs₂) =
      (populateEach chunkAt aggrs calculateChecksum res rs₁ >>= fun res' =>
        populateEach chunkAt aggrs calculateChecksum res' rs₂) :=
  foldlM_result_append _ rs₁ rs₂ res

/-- Loading the parts of a segment file's requests in turn populates the requests the parts
serve, in order. -/
theorem foldlM_loadChunks (seq : Nat) (ps : List LoadIdx) : ∀ (parts : List Part),
    (∀ p ∈ parts, ∀ res, loadChunks segs est seq aggrs calculateChecksum p (slice ps p.elemRng) res =
      populateEach chunkAt aggrs calculateChecksum res ((slice ps p.elemRng).map (seq, ·))) →
    ∀ res, parts.foldlM (fun res p =>
        loadChunks segs est seq aggrs calculateChecksum p (slice ps p.elemRng) res) res =
      populateEach chunkAt aggrs calculateChecksum res
        (((parts.map Part.elemRng).flatMap (slice ps)).map (seq, ·))
  | [], _, _ => rfl
  | p :: parts, hparts, res => by
    rw [List.foldlM_cons, hparts p List.mem_cons_self, List.map_cons, List.flatMap_cons,
      List.map_append, populateEach_append]
    cases populateEach chunkAt aggrs calculateChecksum res ((slice ps p.elemRng).map (seq, ·)) with
    | ok res₁ =>
      exact foldlM_loadChunks seq ps parts (fun q hq => hparts q (List.mem_cons_of_mem _ hq)) res₁
    | error err => rfl
    | panic msg => rfl

/-- With each segment file's sorted requests chunks of it, `loadLoop` populates the requests
in `loadOrder`. -/
theorem loadLoop_populateEach (hest : 1 ≤ est) (hest' : est + 2 ^ 32 ≤ 2 ^ 63) :
    ∀ (toLoad : List (List LoadIdx)) (seq : Nat) (res : List (List AggrChunk)),
    (∀ i pIdxs, toLoad[i]? = some pIdxs → ∃ seg, segs[seq + i]? = some (objectBucket seg) ∧
      seg.length < 2 ^ 63 ∧ SortedChunks seg (chunkAt (seq + i)) est (sortSlice pIdxs)) →
    loadLoop segs sortSlice g est aggrs calculateChecksum seq toLoad res =
      populateEach chunkAt aggrs calculateChecksum res (loadOrder sortSlice seq toLoad)
  | [], _, _, _ => rfl
  | pIdxs :: toLoad, seq, res, hsegs => by
    obtain ⟨seg, hseg, hsmall, hsorted⟩ := hsegs 0 pIdxs rfl
    rw [Nat.add_zero] at hseg hsorted
    set ps := sortSlice pIdxs
    obtain ⟨htiles, hparts⟩ := partition_spec g ps.length (chunkRange ps est)
    -- every part is walked as `loadChunks_part` says
    have hfold := @foldlM_loadChunks segs est chunkAt aggrs calculateChecksum seq ps
      (g.partition ps.length (chunkRange ps est))
      (fun p hp res => by
        obtain ⟨-, hlt, hle⟩ := htiles.bounds p.elemRng (List.mem_map_of_mem hp)
        obtain ⟨q, qs, hslice, hpart, hstart, hle', hstop⟩ := hsorted.part hest' (hparts p hp) hlt hle
        rw [hslice]
        exact loadChunks_part hseg hsmall hest hpart hstart hle' hstop res) res
    have hall : slice ps (0, ps.length) = ps := by simp [slice]
    rw [htiles.flatMap_slice, hall] at hfold
    simp only [loadLoop, loadOrder]
    rw [hfold, populateEach_append]
    cases populateEach chunkAt aggrs calculateChecksum res (ps.map (seq, ·)) with
    | ok res₁ =>
      refine loadLoop_populateEach hest hest' toLoad (seq + 1) res₁ fun i l hl => ?_
      rw [show seq + 1 + i = seq + (i + 1) by omega]
      exact hsegs (i + 1) l hl
    | error err => rfl
    | panic msg => rfl

end Loop

/-! ## The requests `addLoad` files -/

/-- The request `(id, seriesEntry, chunk)` as `load` sees it: the segment file of the ref,
and its offset and place. -/
def reqIdx (r : Nat × Nat × Nat) : Nat × LoadIdx := (r.1 / 2 ^ 32, ⟨r.1 % 2 ^ 32, r.2.1, r.2.2⟩)

/-- Requests `(id, seriesEntry, chunk)` for chunks of the segment files `objects`: the ref of
each is a chunk of its file whose uvarint fits in `est` bytes, no ref is asked for twice, and
two chunks of one file lie apart, CRC included. -/
structure ChunkRequests (objects : List (List UInt8)) (chunkAt : Nat → Nat → RawChunk)
    (est : Nat) (reqs : List (Nat × Nat × Nat)) : Prop where
  chunks : ∀ r ∈ reqs.map reqIdx, ∃ seg, objects[r.1]? = some seg ∧
    ChunkAt seg r.2.offset (chunkAt r.1 r.2.offset) ∧
    (putUvarint (chunkAt r.1 r.2.offset).bytes.length).length ≤ est
  refs : (reqs.map Prod.fst).Nodup
  apart : ∀ r₁ ∈ reqs.map reqIdx, ∀ r₂ ∈ reqs.map reqIdx, r₁.1 = r₂.1 →
    r₁.2.offset < r₂.2.offset → r₁.2.offset + chunkSize (chunkAt r₁.1 r₁.2.offset) + 4 ≤ r₂.2.offset

section Requests

variable {sortSlice : List LoadIdx → List LoadIdx}

theorem loadOrder_replicate_nil (s n : Nat) : loadOrder id s (List.replicate n []) = [] := by
  induction n generalizing s with
  | zero => rfl
  | succ n ih => simp only [List.replicate_succ, loadOrder, id, List.map_nil, List.nil_append, ih]

/-- Filing a request for segment file `i` adds it to the order. -/
theorem loadOrder_modify (q : LoadIdx) : ∀ (toLoad : List (List LoadIdx)) (s i : Nat),
    i < toLoad.length →
    (loadOrder id s (toLoad.modify i (· ++ [q]))).Perm (loadOrder id s toLoad ++ [(s + i, q)])
  | [], _, _, h => absurd h (Nat.not_lt_zero _)
  | l :: toLoad, s, 0, _ => by
    simp only [List.modify_zero_cons, loadOrder, id, List.map_append, List.map_cons, List.map_nil,
      Nat.add_zero, List.append_assoc]
    exact List.Perm.append_left _ (List.perm_append_singleton _ _).symm
  | l :: toLoad, s, i + 1, h => by
    simp only [List.modify_succ_cons, loadOrder, id, List.append_assoc]
    rw [show s + (i + 1) = s + 1 + i by omega]
    exact List.Perm.append_left _ (loadOrder_modify q toLoad (s + 1) i (by simpa using h))

/-- `addLoads` files every request whose segment file exists: what it files are the requests,
in some order. -/
theorem addLoads_ok : ∀ (reqs : List (Nat × Nat × Nat)) (toLoad : List (List LoadIdx)),
    (∀ r ∈ reqs, (reqIdx r).1 < toLoad.length) →
    ∃ toLoad', addLoads toLoad reqs = .ok toLoad' ∧ toLoad'.length = toLoad.length ∧
      (loadOrder id 0 toLoad').Perm (loadOrder id 0 toLoad ++ reqs.map reqIdx)
  | [], toLoad, _ => ⟨toLoad, rfl, rfl, by rw [List.map_nil, List.append_nil]⟩
  | (ref, se, c) :: reqs, toLoad, hreqs => by
    have hlt : ref / 2 ^ 32 < toLoad.length := hreqs _ List.mem_cons_self
    obtain ⟨toLoad', hrun, hlen, hperm⟩ := addLoads_ok reqs
      (toLoad.modify (ref / 2 ^ 32) (· ++ [⟨ref % 2 ^ 32, se, c⟩]))
      (fun r hr => by rw [List.length_modify]; exact hreqs r (List.mem_cons_of_mem _ hr))
    refine ⟨toLoad', ?_, by rw [hlen, List.length_modify], hperm.trans ?_⟩
    · have hnle : ¬ toLoad.length ≤ ref / 2 ^ 32 := Nat.not_le.mpr hlt
      simp only [addLoads, addLoad, hnle, ↓reduceIte]
      exact hrun
    · have hmod := loadOrder_modify ⟨ref % 2 ^ 32, se, c⟩ toLoad 0 _ hlt
      rw [Nat.zero_add] at hmod
      rw [List.map_cons, List.append_cons (loadOrder id 0 toLoad)]
      exact hmod.append_right _

/-- The requests of segment file `i`, sorted, stand in the order as one block. -/
theorem sublist_loadOrder : ∀ (toLoad : List (List LoadIdx)) (s i : Nat) {l : List LoadIdx},
    toLoad[i]? = some l → ((sortSlice l).map (s + i, ·)).Sublist (loadOrder sortSlice s toLoad)
  | [], _, _, _, h => absurd h (by simp)
  | l' :: toLoad, s, 0, l, h => by
    rw [List.getElem?_cons_zero, Option.some.injEq] at h
    subst h
    exact List.sublist_append_left _ _
  | l' :: toLoad, s, i + 1, l, h => by
    rw [List.getElem?_cons_succ] at h
    rw [show s + (i + 1) = s + 1 + i by omega]
    exact (sublist_loadOrder toLoad (s + 1) i h).trans (List.sublist_append_right _ _)

theorem loadOrder_perm_id (hsort : ∀ l, (sortSlice l).Perm l) :
    ∀ (toLoad : List (List LoadIdx)) (s : Nat),
      (loadOrder sortSlice s toLoad).Perm (loadOrder id s toLoad)
  | [], _ => List.Perm.refl _
  | l :: toLoad, s => ((hsort l).map _).append (loadOrder_perm_id hsort toLoad (s + 1))

variable {objects : List (List UInt8)} {chunkAt : Nat → Nat → RawChunk} {est : Nat}
  {reqs : List (Nat × Nat × Nat)}

/-- A ref is its segment file and its offset in it, so no two requests share both. -/
theorem ChunkRequests.keys_nodup (h : ChunkRequests objects chunkAt est reqs) :
    ((reqs.map reqIdx).map fun r => (r.1, r.2.offset)).Nodup := by
  have hinj : Function.Injective fun ref : Nat => (ref / 2 ^ 32, ref % 2 ^ 32) := by
    intro a b hab
    simp only [Prod.mk.injEq] at hab
    rw [← Nat.div_add_mod a (2 ^ 32), ← Nat.div_add_mod b (2 ^ 32), hab.1, hab.2]
  have hrefs := h.refs.map hinj
  rw [List.map_map] at hrefs ⊢
  exact hrefs

/-- Whatever order `addLoads` filed the requests in, each segment file's, sorted, are chunks
of the file as the loop needs them. -/
theorem ChunkRequests.sortedChunks (h : ChunkRequests objects chunkAt est reqs)
    (hsort : ∀ l, (sortSlice l).Perm l ∧ (sortSlice l).Pairwise fun a b => a.offset ≤ b.offset)
    {toLoad : List (List LoadIdx)} (hperm : (loadOrder sortSlice 0 toLoad).Perm (reqs.map reqIdx))
    (hlen : toLoad.length = objects.length) {i : Nat} {l : List LoadIdx}
    (hl : toLoad[i]? = some l) :
    ∃ seg, objects[i]? = some seg ∧ SortedChunks seg (chunkAt i) est (sortSlice l) := by
  have hi : i < objects.length := hlen ▸ (List.getElem?_eq_some_iff.mp hl).1
  have hsub := @sublist_loadOrder sortSlice toLoad 0 i l hl
  rw [Nat.zero_add] at hsub
  have hmem : ∀ q ∈ sortSlice l, (i, q) ∈ reqs.map reqIdx := fun q hq =>
    hperm.subset (hsub.subset (List.mem_map_of_mem hq))
  have hchunk : ∀ q ∈ sortSlice l, ChunkAt objects[i] q.offset (chunkAt i q.offset) ∧
      (putUvarint (chunkAt i q.offset).bytes.length).length ≤ est := by
    intro q hq
    obtain ⟨seg, hseg, hat, hle⟩ := h.chunks _ (hmem q hq)
    obtain rfl : seg = objects[i] :=
      Option.some.inj (hseg.symm.trans (List.getElem?_eq_getElem hi))
    exact ⟨hat, hle⟩
  have hoff : ∀ q ∈ sortSlice l, q.offset < 2 ^ 32 := by
    intro q hq
    obtain ⟨r, -, hr⟩ := List.mem_map.mp (hmem q hq)
    rw [← congrArg (fun r : Nat × LoadIdx => r.2.offset) hr]
    exact Nat.mod_lt _ (by norm_num)
  -- the file's requests stand in the order with distinct offsets
  have hnodup : ((sortSlice l).map LoadIdx.offset).Nodup := by
    have hkeys := (hperm.map fun r => (r.1, r.2.offset)).nodup_iff.mpr h.keys_nodup
    have hfile := List.Nodup.sublist (hsub.map fun r => (r.1, r.2.offset)) hkeys
    refine List.Nodup.of_map (i, ·) ?_
    rw [List.map_map] at hfile ⊢
    exact hfile
  refine ⟨objects[i], List.getElem?_eq_getElem hi, fun q hq => (hchunk q hq).1, ?_,
    fun q hq => (hchunk q hq).2, hoff⟩
  refine ((hsort l).2.and (List.pairwise_map.mp hnodup)).imp_of_mem fun ha hb hab => ?_
  exact h.apart _ (hmem _ ha) _ (hmem _ hb) rfl (lt_of_le_of_ne hab.1 hab.2)

end Requests

/-- `load` of the requests `addLoads` files: with requests for chunks of their segment files,
an estimate that covers each chunk's uvarint, and places that each chunk populates, `load`
populates each place asked for with the chunk at its ref and leaves every other place as it
was. -/
theorem load_populates (objects : List (List UInt8)) (chunkAt : Nat → Nat → RawChunk)
    (est : Nat) (reqs : List (Nat × Nat × Nat)) (hreqs : ChunkRequests objects chunkAt est reqs)
    (hest : 1 ≤ est) (hest' : est + 2 ^ 32 ≤ 2 ^ 63) (hobj : ∀ seg ∈ objects, seg.length < 2 ^ 63)
    (sortSlice : List LoadIdx → List LoadIdx)
    (hsort : ∀ l, (sortSlice l).Perm l ∧ (sortSlice l).Pairwise fun a b => a.offset ≤ b.offset)
    (g : GapBasedPartitioner) (aggrs : List Aggr) (calculateChecksum : Bool)
    (res : List (List AggrChunk)) (hslots : (reqs.map Prod.snd).Nodup)
    (hpop : ∀ r ∈ reqs.map reqIdx, ∃ out out', slotOf res r.2.seriesEntry r.2.chunk = some out ∧
      populateChunk out ((chunkAt r.1 r.2.offset).encoding :: (chunkAt r.1 r.2.offset).bytes)
        aggrs calculateChecksum = .ok out') :
    ∃ toLoad res', addLoads (List.replicate objects.length []) reqs = .ok toLoad ∧
      load (objects.map objectBucket) sortSlice g est toLoad res aggrs calculateChecksum =
        .ok res' ∧
      (∀ r ∈ reqs.map reqIdx, ∃ out out', slotOf res r.2.seriesEntry r.2.chunk = some out ∧
        populateChunk out ((chunkAt r.1 r.2.offset).encoding :: (chunkAt r.1 r.2.offset).bytes)
          aggrs calculateChecksum = .ok out' ∧ slotOf res' r.2.seriesEntry r.2.chunk = some out') ∧
      ∀ se c, (se, c) ∉ reqs.map Prod.snd → slotOf res' se c = slotOf res se c := by
  obtain ⟨toLoad, hadd, hlen, hperm⟩ := addLoads_ok reqs (List.replicate objects.length [])
    (fun r hr => by
      obtain ⟨seg, hseg, -⟩ := hreqs.chunks _ (List.mem_map_of_mem hr)
      rw [List.length_replicate]
      exact (List.getElem?_eq_some_iff.mp hseg).1)
  rw [List.length_replicate] at hlen
  rw [loadOrder_replicate_nil, List.nil_append] at hperm
  have hperm' := (loadOrder_perm_id (fun l => (hsort l).1) toLoad 0).trans hperm
  have hloop := @loadLoop_populateEach (objects.map objectBucket) sortSlice g est chunkAt aggrs
    calculateChecksum hest hest' toLoad 0 res fun i l hl => by
      obtain ⟨seg, hseg, hsorted⟩ := hreqs.sortedChunks hsort hperm' hlen hl
      rw [Nat.zero_add, List.getElem?_map, hseg]
      exact ⟨seg, rfl, hobj seg (List.mem_of_getElem? hseg), hsorted⟩
  have hslots' : ((loadOrder sortSlice 0 toLoad).map fun r => (r.2.seriesEntry, r.2.chunk)).Nodup := by
    refine (hperm'.map _).nodup_iff.mpr ?_
    rw [List.map_map]
    exact hslots
  obtain ⟨res', hrun, hdone, hother⟩ :=
    populateEach_spec (loadOrder sortSlice 0 toLoad) res hslots' fun r hr => hpop r (hperm'.subset hr)
  refine ⟨toLoad, res', hadd, hloop.trans hrun, fun r hr => hdone r (hperm'.symm.subset hr), ?_⟩
  intro se c hsc
  refine hother se c fun r hr heq => hsc ?_
  obtain ⟨r', hr', rfl⟩ := List.mem_map.mp (hperm'.subset hr)
  rw [← heq]
  exact List.mem_map_of_mem hr'

section Run

/-- A segment file with an XOR chunk of three bytes at 0 and one of two bytes at 12, three
bytes of gap between them. -/
def twoChunksSegment : List UInt8 :=
  [3, 1, 7, 7, 7, 0, 0, 0, 0] ++ [0, 0, 0] ++ [2, 1, 5, 5, 0, 0, 0, 0]

def twoChunksAt (_ off : Nat) : RawChunk := if off = 12 then ⟨1, [5, 5]⟩ else ⟨1, [7, 7, 7]⟩

/-- The later chunk asked for first, both for the one series entry. -/
def twoChunksReqs : List (Nat × Nat × Nat) := [(12, 0, 1), (0, 0, 0)]

theorem load_populates_two_chunks :
    ChunkRequests [twoChunksSegment] twoChunksAt 2 twoChunksReqs ∧
    ∃ toLoad res', addLoads (List.replicate 1 []) twoChunksReqs = .ok toLoad ∧
      load ([twoChunksSegment].map objectBucket)
          (List.insertionSort fun a b : LoadIdx => a.offset ≤ b.offset) ⟨0⟩ 2 toLoad
          [[⟨0, 0, none, none, none, none, none, none⟩, ⟨0, 0, none, none, none, none, none, none⟩]]
          [] false = .ok res' ∧
      (∀ r ∈ twoChunksReqs.map reqIdx, ∃ out out',
        slotOf [[⟨0, 0, none, none, none, none, none, none⟩,
          ⟨0, 0, none, none, none, none, none, none⟩]] r.2.seriesEntry r.2.chunk = some out ∧
        populateChunk out ((twoChunksAt r.1 r.2.offset).encoding ::
          (twoChunksAt r.1 r.2.offset).bytes) [] false = .ok out' ∧
        slotOf res' r.2.seriesEntry r.2.chunk = some out') ∧
      ∀ se c, (se, c) ∉ twoChunksReqs.map Prod.snd → slotOf res' se c =
        slotOf [[⟨0, 0, none, none, none, none, none, none⟩,
          ⟨0, 0, none, none, none, none, none, none⟩]] se c := by
  have hreqs : ChunkRequests [twoChunksSegment] twoChunksAt 2 twoChunksReqs := by
    -- `putUvarint` recurses on `x / 128`, so its lengths are left to the kernel
    refine ⟨?_, by decide, by decide +kernel⟩
    intro r hr
    simp only [twoChunksReqs, List.map_cons, List.map_nil, List.mem_cons, List.not_mem_nil,
      or_false] at hr
    rcases hr with rfl | rfl
    · exact ⟨twoChunksSegment, rfl, ⟨[0, 0, 0, 0], [], rfl, by decide +kernel⟩, by decide +kernel⟩
    · exact ⟨twoChunksSegment, rfl, ⟨[0, 0, 0, 0], [0, 0, 0, 2, 1, 5, 5, 0, 0, 0, 0], rfl,
        by decide +kernel⟩, by decide +kernel⟩
  have : Std.Total fun a b : LoadIdx => a.offset ≤ b.offset := ⟨fun a b => le_total a.offset b.offset⟩
  have : IsTrans LoadIdx fun a b => a.offset ≤ b.offset := ⟨fun _ _ _ hab hbc => le_trans hab hbc⟩
  refine ⟨hreqs, load_populates [twoChunksSegment] twoChunksAt 2 twoChunksReqs hreqs (by decide)
    (by norm_num) (by decide) _ (fun l => ⟨List.perm_insertionSort _ l, List.pairwise_insertionSort _ l⟩)
    ⟨0⟩ [] false _ (by decide) ?_⟩
  intro r hr
  simp only [twoChunksReqs, List.map_cons, List.map_nil, List.mem_cons, List.not_mem_nil,
    or_false] at hr
  rcases hr with rfl | rfl <;> exact ⟨_, _, rfl, rfl⟩

/-- An estimate shorter than a chunk's uvarint cuts the length itself: with one byte per
chunk, the XOR chunk at offset 0 of 128 data bytes, whose length takes two bytes, reads as
the byte `0x80` alone, and `load` fails instead of fetching the chunk again. -/
theorem load_cut_length_fails :
    ChunkAt (putUvarint 128 ++ 1 :: List.replicate 128 0 ++ [0, 0, 0, 0]) 0
        ⟨1, List.replicate 128 0⟩ ∧
      addLoads [[]] [(0, 0, 0)] = .ok [[⟨0, 0, 0⟩]] ∧
      load [objectBucket (putUvarint 128 ++ 1 :: List.replicate 128 0 ++ [0, 0, 0, 0])]
          (List.insertionSort fun a b : LoadIdx => a.offset ≤ b.offset) ⟨0⟩ 1 [[⟨0, 0, 0⟩]]
          [[⟨0, 0, none, none, none, none, none, none⟩]] [] false =
        .error "reading chunk length failed" := by
  have hput : putUvarint 128 = [0x80, 0x01] := by
    rw [putUvarint_of_le (by norm_num), putUvarint_of_lt (by norm_num)]
    rfl
  refine ⟨⟨[0, 0, 0, 0], [], rfl, by simp⟩, by decide, ?_⟩
  rw [hput]
  decide

end Run

end Thanos.Store
