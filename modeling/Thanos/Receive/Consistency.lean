import Thanos.Receive.Replicas
import Thanos.Lib.TakeDistinct

/-! # What growing the ring moves

A ketama ring is consistent when adding endpoints only moves series to the new
endpoints: an old endpoint that holds a series' replica on the grown ring held one
before. With one availability zone the walk of `calculateSectionReplicas` takes the
first `replicationFactor` distinct endpoints clockwise from a section
(`replicaLoop_one_zone`), the sections of the old endpoints keep their positions and
their order on the grown ring, and the property follows from
`TakeDistinct.filter_takeDistinct_prefix` (`newKetamaHashring_grow_one_zone`).

With several zones it fails: a new endpoint in a zone of its own lowers the least
zone count, so the walk takes an old endpoint it skipped before
(`newKetamaHashring_grow_moves_old_endpoint`).

The ring is read through `sectionView`: each section as its endpoint and its hash,
so that the rings of two endpoint lists, whose sections number their endpoints
differently, can be compared. -/

namespace Thanos.Receive

open Go.Sort TakeDistinct

section OneZone

variable {ring : List Section} {replicationFactor : Nat}

/-- With at most one zone in `azSpread` the balance rule never fires: a section is
skipped only when its endpoint is a replica already. -/
theorem skipsReplica_of_length_le_one {rep : Section} {replicas : List Nat}
    {azSpread : List (String × Int)} (h : azSpread.length ≤ 1) :
    skipsReplica rep replicas azSpread = decide (rep.endpointIndex ∈ replicas) := by
  simp [skipsReplica, show ¬ azSpread.length > 1 by omega]

theorem length_incrSpread (azSpread : List (String × Int)) (az : String) :
    (incrSpread azSpread az).length = azSpread.length := List.length_map _

theorem mod_succ_add_mod (n j k : Nat) : ((j + 1) % n + 1 + k) % n = (j + 1 + (k + 1)) % n := by
  rw [Nat.add_assoc, Nat.add_mod, Nat.mod_mod, ← Nat.add_mod]
  congr 1
  omega

/-- With one zone, the walk over the sections `l` met after index `j` is
`takeDistinct` of their endpoints, once it fills up. -/
theorem replicaLoop_one_zone :
    ∀ (l : List Section) (j : Nat) (acc : List Nat) (azSpread : List (String × Int)) (fuel : Nat),
      azSpread.length ≤ 1 → (∀ k < l.length, ring[(j + 1 + k) % ring.length]? = l[k]?) →
      (takeDistinct replicationFactor acc (l.map Section.endpointIndex)).length = replicationFactor →
      replicaLoop ring replicationFactor (l.length + fuel + 1) j acc azSpread =
        some (takeDistinct replicationFactor acc (l.map Section.endpointIndex))
  | [], j, acc, azSpread, fuel, _, _, hfull => by
    rw [List.map_nil, takeDistinct_nil] at hfull ⊢
    simp [replicaLoop, hfull]
  | x :: l, j, acc, azSpread, fuel, hs, hl, hfull => by
    rw [List.map_cons] at hfull ⊢
    by_cases hlt : acc.length < replicationFactor
    · have hx : ring[(j + 1) % ring.length]? = some x := by simpa using hl 0 (by simp)
      have hl' : ∀ k < l.length, ring[((j + 1) % ring.length + 1 + k) % ring.length]? = l[k]? :=
        fun k hk => by
          rw [mod_succ_add_mod]
          simpa using hl (k + 1) (by simp; omega)
      obtain ⟨hbound, hxe⟩ := List.getElem?_eq_some_iff.mp hx
      rw [show (x :: l).length + fuel + 1 = (l.length + fuel + 1) + 1 by simp; omega,
        replicaLoop_succ_of_lt hlt hbound, hxe, skipsReplica_of_length_le_one hs]
      rw [takeDistinct_cons_of_lt hlt] at hfull ⊢
      by_cases hmem : x.endpointIndex ∈ acc
      · simp only [hmem, decide_true, if_true] at hfull ⊢
        exact replicaLoop_one_zone l _ acc azSpread fuel hs hl' hfull
      · simp only [hmem, decide_false, Bool.false_eq_true, if_false] at hfull ⊢
        exact replicaLoop_one_zone l _ _ _ fuel (by rw [length_incrSpread]; exact hs) hl' hfull
    · rw [takeDistinct_of_le (Nat.not_lt.mp hlt)] at hfull ⊢
      rw [show (x :: l).length + fuel + 1 = (l.length + fuel + 1) + 1 by simp; omega]
      simp [replicaLoop, hlt]

/-- The walk of section `i`, from the section itself once round the ring. -/
theorem replicaLoop_one_zone_rotate {E : List Endpoint}
    (hcovers : ∀ e < E.length, ∃ sec ∈ ring, sec.endpointIndex = e) (hrfE : replicationFactor ≤ E.length)
    {azSpread : List (String × Int)} (hs : azSpread.length ≤ 1) {i : Nat} (hi : i < ring.length)
    (fuel : Nat) :
    replicaLoop ring replicationFactor (ring.length + fuel + 1) (i + ring.length - 1) [] azSpread =
      some (takeDistinct replicationFactor [] ((ring.rotate i).map Section.endpointIndex)) := by
  have hpos : ∀ k < (ring.rotate i).length,
      ring[(i + ring.length - 1 + 1 + k) % ring.length]? = (ring.rotate i)[k]? := fun k hk => by
    rw [List.length_rotate] at hk
    rw [List.getElem?_rotate hk, Nat.sub_add_cancel (by omega),
      show i + ring.length + k = k + i + ring.length by omega, Nat.add_mod_right]
  -- every endpoint is met once round the ring, and there are enough of them
  have hfull : (takeDistinct replicationFactor [] ((ring.rotate i).map Section.endpointIndex)).length =
      replicationFactor := by
    refine length_takeDistinct_eq (Nat.zero_le _) (List.nodup_range (n := E.length))
      (by simpa using hrfE) fun e he => Or.inr ?_
    obtain ⟨sec, hsec, rfl⟩ := hcovers e (List.mem_range.mp he)
    exact List.mem_map_of_mem ((List.mem_rotate).mpr hsec)
  have := replicaLoop_one_zone (ring.rotate i) (i + ring.length - 1) [] azSpread fuel hs hpos hfull
  rwa [List.length_rotate] at this

end OneZone

section View

/-- A section as its endpoint and its position on the ring. -/
def sectionView (E : List Endpoint) (s : Section) : Option Endpoint × UInt64 :=
  (E[s.endpointIndex]?, s.hash)

/-- The order `sort.Sort` puts sections in, on their views. -/
def viewLe (a b : Option Endpoint × UInt64) : Prop := a.2 ≤ b.2

instance : DecidableRel viewLe := fun a b => inferInstanceAs (Decidable (a.2 ≤ b.2))

instance : Std.Total viewLe := ⟨fun a b => UInt64.le_total a.2 b.2⟩

instance : IsTrans (Option Endpoint × UInt64) viewLe := ⟨fun _ _ _ => UInt64.le_trans⟩

/-- The points of a ring of `endpoints`, before sorting: each endpoint's positions,
endpoint by endpoint. -/
def pointsOf (endpoints : List Endpoint) (sectionsPerNode : Nat) : List (Option Endpoint × UInt64) :=
  endpoints.flatMap fun e => (List.range sectionsPerNode).map fun k =>
    (some e, XXHash.sum64 (stringBytes (e.address ++ ":" ++ toString (k + 1))))

/-- The points of the ring, sorted by position. -/
def ringPoints (endpoints : List Endpoint) (sectionsPerNode : Nat) : List (Option Endpoint × UInt64) :=
  (pointsOf endpoints sectionsPerNode).insertionSort viewLe

/-- The endpoints a walk from position `v` meets once round the ring: the points at
or after `v`, then those before it. -/
def walkFrom (points : List (Option Endpoint × UInt64)) (v : UInt64) : List (Option Endpoint) :=
  ((points.filter fun a => decide (a.2 ≥ v)) ++ points.filter fun a => !decide (a.2 ≥ v)).map Prod.fst

theorem map_sectionView_ringSectionsOf (E : List Endpoint) (sectionsPerNode : Nat) :
    (ringSectionsOf E sectionsPerNode).map (sectionView E) = pointsOf E sectionsPerNode := by
  rw [ringSectionsOf, List.map_flatMap, pointsOf]
  conv_rhs => rw [← List.zipIdx_map_fst 0 E, List.flatMap_map]
  refine List.flatMap_congr fun x hx => ?_
  obtain ⟨e, i⟩ := x
  have hget := List.mk_mem_zipIdx_iff_getElem?.mp hx
  simp [sectionView, hget]

/-- The ring `newKetamaHashring` sorts. -/
def sortedSections (endpoints : List Endpoint) (sectionsPerNode : Nat) : List Section :=
  (ringSectionsOf endpoints sectionsPerNode).insertionSort fun a b => sectionLe a b

theorem ringPoints_eq (E : List Endpoint) (sectionsPerNode : Nat) :
    (sortedSections E sectionsPerNode).map (sectionView E) = ringPoints E sectionsPerNode := by
  rw [sortedSections, ringPoints, ← map_sectionView_ringSectionsOf]
  exact List.map_insertionSort _ _ _ _ fun a _ b _ => by simp [sectionLe, viewLe, sectionView]

theorem pairwise_ringPoints (E : List Endpoint) (sectionsPerNode : Nat) :
    (ringPoints E sectionsPerNode).Pairwise viewLe := List.pairwise_insertionSort _ _

/-- The old endpoints of a grown list are the old list, up to order. -/
theorem filter_mem_perm {E E' : List Endpoint} (hsub : ∀ e ∈ E, e ∈ E') (hndE : E.Nodup)
    (hnd : E'.Nodup) : (E'.filter fun e => decide (e ∈ E)).Perm E :=
  (List.perm_ext_iff_of_nodup (hnd.filter _) hndE).mpr fun e => by
    simp only [List.mem_filter, decide_eq_true_eq]
    exact ⟨And.right, fun he => ⟨hsub e he, he⟩⟩

theorem filter_flatMap_eq {α β : Type} (p : α → Bool) (g : α → List β) :
    ∀ l : List α, (l.filter p).flatMap g = l.flatMap fun a => if p a then g a else []
  | [] => rfl
  | a :: l => by
    by_cases hp : p a = true <;> simp [hp, filter_flatMap_eq p g l]

/-- The old points of the grown ring are the points of the old ring, up to order. -/
theorem filter_pointsOf_perm {E E' : List Endpoint} (hsub : ∀ e ∈ E, e ∈ E') (hndE : E.Nodup)
    (hnd : E'.Nodup) (sectionsPerNode : Nat) :
    ((pointsOf E' sectionsPerNode).filter fun a => decide (a.1 ∈ E.map some)).Perm
      (pointsOf E sectionsPerNode) := by
  have heq : (pointsOf E' sectionsPerNode).filter (fun a => decide (a.1 ∈ E.map some)) =
      (E'.filter fun e => decide (e ∈ E)).flatMap fun e => (List.range sectionsPerNode).map fun k =>
        (some e, XXHash.sum64 (stringBytes (e.address ++ ":" ++ toString (k + 1)))) := by
    rw [pointsOf, List.filter_flatMap, filter_flatMap_eq]
    refine List.flatMap_congr fun e _ => ?_
    by_cases he : e ∈ E
    · simp [he]
    · rw [if_neg (by simpa using he)]
      refine List.filter_eq_nil_iff.mpr ?_
      simp only [List.mem_map]
      rintro _ ⟨k, _, rfl⟩
      simpa using he
  rw [heq, pointsOf]
  exact (filter_mem_perm hsub hndE hnd).flatMap_right _

/-- With the points of the grown ring at distinct positions, its old points in ring order are
the old ring: a sort agrees on them whatever order the endpoints come in. -/
theorem filter_ringPoints {E E' : List Endpoint} (hsub : ∀ e ∈ E, e ∈ E') (hndE : E.Nodup)
    (hnd : E'.Nodup) (sectionsPerNode : Nat)
    (hpos : ((pointsOf E' sectionsPerNode).map Prod.snd).Nodup) :
    (ringPoints E' sectionsPerNode).filter (fun a => decide (a.1 ∈ E.map some)) =
      ringPoints E sectionsPerNode := by
  have hperm := filter_pointsOf_perm hsub hndE hnd sectionsPerNode
  rw [ringPoints, filter_insertionSort, ringPoints]
  refine List.Perm.eq_of_pairwise (fun a b ha hb hab hba => ?_) (List.pairwise_insertionSort _ _)
    (List.pairwise_insertionSort _ _)
    ((List.perm_insertionSort _ _).trans (hperm.trans (List.perm_insertionSort _ _).symm))
  have ha' : a ∈ pointsOf E' sectionsPerNode :=
    (List.mem_filter.mp ((List.perm_insertionSort _ _).subset ha)).1
  have hb' : b ∈ pointsOf E' sectionsPerNode :=
    (List.mem_filter.mp (hperm.symm.subset ((List.perm_insertionSort _ _).subset hb))).1
  exact List.inj_on_of_nodup_map hpos ha' hb' (UInt64.le_antisymm hab hba)

theorem filter_walkFrom (points : List (Option Endpoint × UInt64)) (v : UInt64) (E : List Endpoint) :
    (walkFrom points v).filter (fun o => decide (o ∈ E.map some)) =
      walkFrom (points.filter fun a => decide (a.1 ∈ E.map some)) v := by
  simp only [walkFrom, List.filter_map, List.filter_append, List.filter_filter, Function.comp_def]
  congr 2 <;> exact List.filter_congr fun x _ => Bool.and_comm _ _

end View

section Lookup

/-- `mapM` in `Option` of a function that succeeds on every element. -/
theorem mapM_eq_some_map {α β : Type} {f : α → Option β} {g : α → β} :
    ∀ {l : List α}, (∀ x ∈ l, f x = some (g x)) → l.mapM f = some (l.map g)
  | [], _ => rfl
  | a :: l, h => by
    rw [List.mapM_cons, h a List.mem_cons_self, mapM_eq_some_map fun x hx => h x (List.mem_cons_of_mem _ hx)]
    rfl

theorem bind_getElem?_eq_getD {α β : Type} (l : List α) (f : α → Option β) (n : Nat) :
    (l[n]?).bind f = (l.map f).getD n none := by
  rw [List.getD_eq_getElem?_getD, List.getElem?_map]
  cases l[n]? <;> rfl

/-- The ring with each section's walk `W i` as its replicas. -/
def withReplicas (ring : List Section) (W : Nat → List Nat) : List Section :=
  ring.zipIdx.map fun (s, i) => { s with replicas := W i }

theorem map_hash_withReplicas (ring : List Section) (W : Nat → List Nat) :
    (withReplicas ring W).map Section.hash = ring.map Section.hash := by
  rw [withReplicas, List.map_map]
  conv_rhs => rw [← List.zipIdx_map_fst 0 ring, List.map_map]
  rfl

/-- `GetN` on a ring sorted by hash: the `n`-th replica of the first section at or
after the series' hash, or of the first section when there is none. -/
theorem getN_withReplicas {E : List Endpoint} {ring : List Section} (W : Nat → List Nat)
    (hsorted : ring.Pairwise fun a b => a.hash ≤ b.hash) (hne : ring ≠ []) (tenant : String)
    (lbls : List (String × String)) {n : Nat} (hn : n < E.length) :
    KetamaHashring.getN ⟨E, withReplicas ring W, E.length⟩ tenant lbls n =
      .ok (((W (if ring.findIdx (fun s => decide (s.hash ≥ hashWithPrefix tenant lbls)) = ring.length then 0
          else ring.findIdx fun s => decide (s.hash ≥ hashWithPrefix tenant lbls)))[n]?).bind
        fun i => E[i]?) := by
  simp only [KetamaHashring.getN, if_neg (Nat.not_le.mpr hn)]
  set v := hashWithPrefix tenant lbls
  have hlen : (withReplicas ring W).length = ring.length := by simp [withReplicas]
  have hhash := map_hash_withReplicas ring W
  -- the search finds the first section at or after `v`, the same index as on `ring`
  have hmono : (withReplicas ring W).Pairwise
      fun a b => decide (a.hash ≥ v) = true → decide (b.hash ≥ v) = true :=
    (List.pairwise_map.mp (hhash ▸ List.pairwise_map.mpr hsorted)).imp fun hab ha => by
      simp only [decide_eq_true_eq] at ha ⊢
      exact UInt64.le_trans ha hab
  have hfind : (withReplicas ring W).findIdx (fun s => decide (s.hash ≥ v)) =
      ring.findIdx fun s => decide (s.hash ≥ v) := by
    have h1 := List.findIdx_map (withReplicas ring W) Section.hash fun h => decide (h ≥ v)
    have h2 := List.findIdx_map ring Section.hash fun h => decide (h ≥ v)
    rw [hhash] at h1
    exact h1.symm.trans h2
  rw [search_eq_findIdx _ _ hmono _ fun k hk => by simp [List.getElem?_eq_getElem hk], hfind, hlen]
  set i := ring.findIdx fun s => decide (s.hash ≥ v)
  have hi' : (if i = ring.length then 0 else i) < ring.length := by
    have : i ≤ ring.length := List.findIdx_le_length
    have : 0 < ring.length := List.length_pos_of_ne_nil hne
    split_ifs <;> omega
  generalize hj : (if i = ring.length then 0 else i) = j at hi'
  have hget : (withReplicas ring W)[j]? = some { ring[j] with replicas := W j } := by
    simp [withReplicas, List.getElem?_zipIdx, List.getElem?_eq_getElem hi']
  rw [hget]
  rfl

end Lookup

section Grow

variable {E : List Endpoint} {sectionsPerNode replicationFactor : Nat}

theorem length_zonesOf_le_one {az : String} (haz : ∀ e ∈ E, e.az = az) : (zonesOf E).length ≤ 1 := by
  have hsub : ∀ z ∈ zonesOf E, z ∈ [az] := fun z hz => by
    obtain ⟨e, he, rfl⟩ := List.mem_map.mp (List.mem_dedup.mp hz)
    simp [haz e he]
  simpa using nodup_zonesOf.length_le_of_subset hsub

theorem sortedSections_sorted (E : List Endpoint) (sectionsPerNode : Nat) :
    (sortedSections E sectionsPerNode).Pairwise fun a b => a.hash ≤ b.hash := by
  have := pairwise_ringPoints E sectionsPerNode
  rw [← ringPoints_eq, List.pairwise_map] at this
  exact this

/-- With one zone, `newKetamaHashring` gives each section the first
`replicationFactor` distinct endpoints from it once round the ring. -/
theorem newKetamaHashring_one_zone (hzones : (zonesOf E).length ≤ 1) (hspn : 1 ≤ sectionsPerNode)
    (hrfE : replicationFactor ≤ E.length) {fuel : Nat} (hfuel : E.length * sectionsPerNode + 1 ≤ fuel) :
    newKetamaHashring fuel E sectionsPerNode replicationFactor =
      .ok (some ⟨E, withReplicas (sortedSections E sectionsPerNode) (fun i =>
        takeDistinct replicationFactor [] (((sortedSections E sectionsPerNode).rotate i).map
          Section.endpointIndex)), E.length⟩) := by
  have hcovers : ∀ e < E.length, ∃ sec ∈ sortedSections E sectionsPerNode, sec.endpointIndex = e :=
    covers_insertionSort (ringSectionsOf_covers E hspn) (fun a b => sectionLe a b)
  have hlenRing : (sortedSections E sectionsPerNode).length = E.length * sectionsPerNode := by
    rw [sortedSections, List.length_insertionSort, length_ringSectionsOf]
  have hcalc : calculateSectionReplicas fuel (sortedSections E sectionsPerNode) replicationFactor (zonesOf E) =
      some (withReplicas (sortedSections E sectionsPerNode) fun i => takeDistinct replicationFactor []
        (((sortedSections E sectionsPerNode).rotate i).map Section.endpointIndex)) := by
    refine mapM_eq_some_map fun x hx => ?_
    obtain ⟨s, i⟩ := x
    obtain ⟨hi, hs⟩ := List.getElem?_eq_some_iff.mp (List.mk_mem_zipIdx_iff_getElem?.mp hx)
    obtain ⟨m, rfl⟩ := Nat.exists_eq_add_of_le
      (show (sortedSections E sectionsPerNode).length + 1 ≤ fuel by omega)
    dsimp only
    rw [show (sortedSections E sectionsPerNode).length + 1 + m =
        (sortedSections E sectionsPerNode).length + m + 1 by omega,
      replicaLoop_one_zone_rotate hcovers hrfE
        (show ((zonesOf E).map fun az => (az, (0 : Int))).length ≤ 1 by simpa using hzones) hi m]
    rfl
  simp only [newKetamaHashring, if_neg (Nat.not_lt.mpr hrfE)]
  rw [show (E.map Endpoint.az).dedup = zonesOf E from rfl]
  change Except.ok ((calculateSectionReplicas fuel (sortedSections E sectionsPerNode) replicationFactor
    (zonesOf E)).map _) = _
  rw [hcalc]
  rfl

/-- With one zone, the replicas `GetN` gives a series are the first
`replicationFactor` distinct endpoints met from its hash clockwise. -/
theorem getN_one_zone (hnd : E.Nodup) (tenant : String) (lbls : List (String × String)) {n : Nat}
    (hn : n < replicationFactor) (hrfE : replicationFactor ≤ E.length) (hspn : 1 ≤ sectionsPerNode) :
    KetamaHashring.getN ⟨E, withReplicas (sortedSections E sectionsPerNode) (fun i =>
        takeDistinct replicationFactor [] (((sortedSections E sectionsPerNode).rotate i).map
          Section.endpointIndex)), E.length⟩ tenant lbls n =
      .ok ((takeDistinct replicationFactor []
        (walkFrom (ringPoints E sectionsPerNode) (hashWithPrefix tenant lbls))).getD n none) := by
  set ring := sortedSections E sectionsPerNode
  set v := hashWithPrefix tenant lbls
  have hring : RingOf E ring := ringOf_insertionSort (ringOf_ringSectionsOf E sectionsPerNode) _
  have hne : ring ≠ [] := by
    obtain ⟨sec, hsec, -⟩ := covers_insertionSort (ringSectionsOf_covers E hspn) (fun a b => sectionLe a b) 0
      (by omega)
    exact List.ne_nil_of_mem hsec
  rw [getN_withReplicas _ (sortedSections_sorted E sectionsPerNode) hne tenant lbls (by omega),
    bind_getElem?_eq_getD]
  congr 2
  set i := ring.findIdx fun s => decide (s.hash ≥ v)
  have hwalk : ∀ j, ((ring.rotate j).map Section.endpointIndex).map (fun k => E[k]?) =
      ((ringPoints E sectionsPerNode).rotate j).map Prod.fst := by
    intro j
    rw [← ringPoints_eq, List.map_rotate, List.map_rotate, List.map_rotate, List.map_map, List.map_map]
    rfl
  have hinj : ∀ j, ∀ x ∈ [] ++ (ring.rotate j).map Section.endpointIndex,
      ∀ y ∈ [] ++ (ring.rotate j).map Section.endpointIndex, E[x]? = E[y]? → x = y := by
    intro j x hx y hy hxy
    obtain ⟨sx, hsx, rfl⟩ := List.mem_map.mp (by simpa using hx)
    obtain ⟨sy, hsy, rfl⟩ := List.mem_map.mp (by simpa using hy)
    exact (List.getElem?_inj (hring sx hsx).1 hnd).mp hxy
  have hstart : (ringPoints E sectionsPerNode).rotate (if i = ring.length then 0 else i) =
      (ringPoints E sectionsPerNode).rotate i := by
    split_ifs with h
    · have hlen : (ringPoints E sectionsPerNode).length = ring.length := by
        rw [← ringPoints_eq, List.length_map]
      rw [List.rotate_zero, h, ← hlen, List.rotate_length]
    · rfl
  have hi : i = (ringPoints E sectionsPerNode).findIdx fun a => decide (a.2 ≥ v) := by
    rw [← ringPoints_eq, List.findIdx_map]
    rfl
  have hmono : (ringPoints E sectionsPerNode).Pairwise
      fun a b => decide (a.2 ≥ v) = true → decide (b.2 ≥ v) = true :=
    (pairwise_ringPoints E sectionsPerNode).imp fun hab ha => by
      simp only [decide_eq_true_eq] at ha ⊢
      exact UInt64.le_trans ha hab
  rw [map_takeDistinct _ _ _ (hinj _), List.map_nil, hwalk, hstart, hi, rotate_findIdx _ hmono]
  rfl

/-- Growing a one-zone ring only moves series to new endpoints: an old endpoint among
a series' replicas on the grown ring was among them before. The grown list holds the old
endpoints in any order; its sections sit at distinct positions, where every sort, stable or
not, orders them alike. -/
theorem newKetamaHashring_grow_one_zone (E E' : List Endpoint) (hsub : ∀ e ∈ E, e ∈ E')
    (hndE : E.Nodup) (hnd : E'.Nodup)
    (az : String) (haz : ∀ e ∈ E', e.az = az) (sectionsPerNode replicationFactor : Nat)
    (hspn : 1 ≤ sectionsPerNode) (hhash : ((ringSectionsOf E' sectionsPerNode).map Section.hash).Nodup)
    (hrfE : replicationFactor ≤ E.length) (fuel : Nat)
    (hfuel : E'.length * sectionsPerNode + 1 ≤ fuel) :
    ∃ c c', newKetamaHashring fuel E sectionsPerNode replicationFactor = .ok (some c) ∧
      newKetamaHashring fuel E' sectionsPerNode replicationFactor = .ok (some c') ∧
      ∀ (tenant : String) (lbls : List (String × String)), ∀ n < replicationFactor, ∀ e ∈ E,
        c'.getN tenant lbls n = .ok (some e) → ∃ m < replicationFactor, c.getN tenant lbls m = .ok (some e) := by
  have hlen : E.length ≤ E'.length := (List.subperm_of_subset hndE hsub).length_le
  have hrfE' : replicationFactor ≤ E'.length := le_trans hrfE hlen
  have hfuelE : E.length * sectionsPerNode + 1 ≤ fuel :=
    le_trans (Nat.add_le_add_right (Nat.mul_le_mul_right _ hlen) 1) hfuel
  have hpos : ((pointsOf E' sectionsPerNode).map Prod.snd).Nodup := by
    rw [← map_sectionView_ringSectionsOf, List.map_map]
    exact hhash
  refine ⟨_, _, newKetamaHashring_one_zone (length_zonesOf_le_one fun e he => haz e (hsub e he)) hspn hrfE
    hfuelE, newKetamaHashring_one_zone (length_zonesOf_le_one haz) hspn hrfE' hfuel, ?_⟩
  intro tenant lbls n hn e he hget
  rw [getN_one_zone hnd tenant lbls hn hrfE' hspn, Except.ok.injEq] at hget
  set v := hashWithPrefix tenant lbls
  -- the walk on the grown ring, restricted to old endpoints, starts the walk on the old ring
  have hpre := filter_takeDistinct_nil_prefix (n := replicationFactor) (fun o => decide (o ∈ E.map some))
    (walkFrom (ringPoints E' sectionsPerNode) v)
  rw [filter_walkFrom, filter_ringPoints hsub hndE hnd sectionsPerNode hpos] at hpre
  have hmem' : some e ∈ takeDistinct replicationFactor [] (walkFrom (ringPoints E' sectionsPerNode) v) := by
    rw [List.getD_eq_getElem?_getD] at hget
    cases h : (takeDistinct replicationFactor [] (walkFrom (ringPoints E' sectionsPerNode) v))[n]? with
    | none => simp [h] at hget
    | some o =>
      rw [h, Option.getD_some] at hget
      exact hget ▸ List.mem_of_getElem? h
  have hmem : some e ∈ takeDistinct replicationFactor [] (walkFrom (ringPoints E sectionsPerNode) v) :=
    hpre.subset (List.mem_filter.mpr ⟨hmem', by simpa using he⟩)
  obtain ⟨m, hm, hme⟩ := List.getElem_of_mem hmem
  have hmrf : m < replicationFactor :=
    lt_of_lt_of_le hm (length_takeDistinct_le _ (Nat.zero_le _))
  refine ⟨m, hmrf, ?_⟩
  rw [getN_one_zone hndE tenant lbls hmrf hrfE hspn, List.getD_eq_getElem?_getD,
    List.getElem?_eq_getElem hm, hme]
  rfl

/-- Two endpoints grown to three, the new one first and the old ones swapped. -/
theorem newKetamaHashring_grow_one_zone_two_to_three :
    ∃ c c', newKetamaHashring 4 [⟨"a", "A"⟩, ⟨"b", "A"⟩] 1 2 = .ok (some c) ∧
      newKetamaHashring 4 [⟨"c", "A"⟩, ⟨"b", "A"⟩, ⟨"a", "A"⟩] 1 2 = .ok (some c') ∧
      ∀ (tenant : String) (lbls : List (String × String)), ∀ n < 2, ∀ e ∈ [⟨"a", "A"⟩, ⟨"b", "A"⟩],
        c'.getN tenant lbls n = .ok (some e) → ∃ m < 2, c.getN tenant lbls m = .ok (some e) :=
  newKetamaHashring_grow_one_zone _ _ (by decide) (by decide) (by decide) "A" (by decide) 1 2 (le_refl 1)
    (by decide +kernel) (by decide) 4 (by decide)

/-- Four endpoints in zone `A`, then a fifth in zone `B` added at the end, with a
replication factor of three. The series `{x="10"}` of the empty tenant lands on the
section of `a`: before, its replicas are `a`, `b`, `d`; after, `a`, `e`, `c`. The
walk now skips `b` and `d` until `e` of the empty zone `B` is taken, then takes `c`,
an old endpoint that held no replica of the series. -/
theorem newKetamaHashring_grow_moves_old_endpoint :
    (newKetamaHashring 100 [⟨"a", "A"⟩, ⟨"b", "A"⟩, ⟨"c", "A"⟩, ⟨"d", "A"⟩] 1 3).map
        (Option.map fun c => (List.range 3).map (c.getN "" [("x", "10")])) =
      .ok (some [.ok (some ⟨"a", "A"⟩), .ok (some ⟨"b", "A"⟩), .ok (some ⟨"d", "A"⟩)]) ∧
    (newKetamaHashring 100 [⟨"a", "A"⟩, ⟨"b", "A"⟩, ⟨"c", "A"⟩, ⟨"d", "A"⟩, ⟨"e", "B"⟩] 1 3).map
        (Option.map fun c => (List.range 3).map (c.getN "" [("x", "10")])) =
      .ok (some [.ok (some ⟨"a", "A"⟩), .ok (some ⟨"e", "B"⟩), .ok (some ⟨"c", "A"⟩)]) := by
  decide +kernel

end Grow

end Thanos.Receive
