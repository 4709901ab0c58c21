import Mathlib
import Thanos.Receive.Hashring

/-! # What the replica walk keeps, and when it ends

Along the walk of `calculateSectionReplicas` the replicas are distinct endpoints,
`azSpread` counts them per zone, and no zone holds two more than another
(`Walked`): the walk only adds an endpoint of a zone that is empty or among the
least occupied. That bounds the walk: if some zone `z₀` is so small that the
zones together can take fewer than `replicationFactor` endpoints at most one above
`z₀`'s size, the walk never ends, and neither does `newKetamaHashring`
(`newKetamaHashring_hangs`). Where every zone holds its share
`⌈replicationFactor / zones⌉`, the least occupied zone always has a free endpoint,
a walk takes one within a round of the ring, and `newKetamaHashring` ends
(`newKetamaHashring_terminates`); whenever it ends, each section has
`replicationFactor` distinct replicas, its own endpoint first
(`newKetamaHashring_sections`). -/

namespace Thanos.Receive

section Zones

variable (E : List Endpoint)

/-- The zones of `availabilityZones`. -/
def zonesOf : List String := (E.map Endpoint.az).dedup

def zoneOf (i : Nat) : Option String := (E[i]?).map Endpoint.az

/-- The replicas in zone `z`. -/
def zoneCount (replicas : List Nat) (z : String) : Nat :=
  (replicas.filter fun i => zoneOf E i = some z).length

/-- The endpoints in zone `z`. -/
def zoneSize (z : String) : Nat :=
  ((List.range E.length).filter fun i => zoneOf E i = some z).length

/-- Every section of the ring belongs to an endpoint, in that endpoint's zone. -/
def RingOf (ring : List Section) : Prop :=
  ∀ s ∈ ring, s.endpointIndex < E.length ∧ zoneOf E s.endpointIndex = some s.az

/-- The state of the walk: distinct endpoints, counted per zone in `azSpread`, with
no zone two above another. -/
structure Walked (replicas : List Nat) (azSpread : List (String × Int)) : Prop where
  nodup : replicas.Nodup
  valid : ∀ i ∈ replicas, i < E.length
  spread : azSpread = (zonesOf E).map fun z => (z, (zoneCount E replicas z : Int))
  balanced : ∀ z ∈ zonesOf E, ∀ z' ∈ zonesOf E, zoneCount E replicas z ≤ zoneCount E replicas z' + 1

variable {E}

theorem mem_zonesOf {i : Nat} {z : String} (h : zoneOf E i = some z) : z ∈ zonesOf E := by
  rw [zonesOf, List.mem_dedup, List.mem_map]
  simp only [zoneOf, Option.map_eq_some_iff] at h
  obtain ⟨e, he, rfl⟩ := h
  exact ⟨e, List.mem_of_getElem? he, rfl⟩

theorem nodup_zonesOf : (zonesOf E).Nodup := List.nodup_dedup _

theorem zoneOf_of_lt {i : Nat} (h : i < E.length) : zoneOf E i = some E[i].az := by
  simp [zoneOf, List.getElem?_eq_getElem h]

theorem zoneCount_nil (z : String) : zoneCount E [] z = 0 := rfl

theorem zoneCount_append_single (replicas : List Nat) (i : Nat) (z : String) :
    zoneCount E (replicas ++ [i]) z = zoneCount E replicas z + if zoneOf E i = some z then 1 else 0 := by
  by_cases h : zoneOf E i = some z <;> simp [zoneCount, List.filter_append, h]

theorem lookup_map_self (zones : List String) (f : String → Int) {z : String} (hz : z ∈ zones) :
    (zones.map fun z => (z, f z)).lookup z = some (f z) := by
  induction zones with
  | nil => cases hz
  | cons z' zones ih =>
    by_cases h : z = z'
    · subst h
      simp
    · have hb : (z == z') = false := by simpa using h
      simp only [List.map_cons, List.lookup_cons, hb]
      exact ih (List.mem_of_ne_of_mem h hz)

theorem sizeOfLeastOccupiedAZ_le_init (azSpread : List (String × Int)) (init : Int) :
    azSpread.foldl (fun minValue p => if p.2 < minValue then p.2 else minValue) init ≤ init := by
  induction azSpread generalizing init with
  | nil => exact le_refl _
  | cons p ps ih =>
    rw [List.foldl_cons]
    refine le_trans (ih _) ?_
    split_ifs with h
    · exact le_of_lt h
    · exact le_refl _

/-- The least occupied zone holds at most as many replicas as any. -/
theorem sizeOfLeastOccupiedAZ_le {azSpread : List (String × Int)} {p : String × Int} (hp : p ∈ azSpread) :
    sizeOfLeastOccupiedAZ azSpread ≤ p.2 := by
  unfold sizeOfLeastOccupiedAZ
  generalize maxInt64 = init
  induction azSpread generalizing init with
  | nil => cases hp
  | cons q qs ih =>
    rw [List.foldl_cons]
    rcases List.mem_cons.mp hp with rfl | hp
    · refine le_trans (sizeOfLeastOccupiedAZ_le_init _ _) ?_
      split_ifs with h
      · exact le_refl _
      · exact not_lt.mp h
    · exact ih hp _

theorem spreadOf_of_walked {replicas : List Nat} {azSpread : List (String × Int)}
    (hw : Walked E replicas azSpread) {z : String} (hz : z ∈ zonesOf E) :
    spreadOf azSpread z = zoneCount E replicas z := by
  rw [spreadOf, hw.spread, lookup_map_self _ _ hz]
  rfl

theorem walked_nil : Walked E [] ((zonesOf E).map fun az => (az, 0)) :=
  ⟨List.nodup_nil, fun _ h => absurd h List.not_mem_nil, rfl, fun _ _ _ _ => Nat.zero_le _⟩

theorem incrSpread_walked {replicas : List Nat} {i : Nat} {az : String} (hi : zoneOf E i = some az) :
    incrSpread ((zonesOf E).map fun z => (z, (zoneCount E replicas z : Int))) az =
      (zonesOf E).map fun z => (z, (zoneCount E (replicas ++ [i]) z : Int)) := by
  rw [incrSpread, List.map_map]
  refine List.map_congr_left fun z _ => ?_
  rw [zoneCount_append_single, hi]
  by_cases h : z = az
  · subst h
    simp
  · have h' : ¬ some az = some z := fun e => h (Option.some.inj e).symm
    simp [h, h']

/-- An endpoint the walk does not skip keeps `Walked`. -/
theorem Walked.add {ring : List Section} (hring : RingOf E ring) {replicas : List Nat}
    {azSpread : List (String × Int)} (hw : Walked E replicas azSpread) {rep : Section} (hrep : rep ∈ ring)
    (hskip : skipsReplica rep replicas azSpread = false) :
    Walked E (replicas ++ [rep.endpointIndex]) (incrSpread azSpread rep.az) := by
  obtain ⟨hlt, hzone⟩ := hring rep hrep
  have hz := mem_zonesOf hzone
  simp only [skipsReplica, Bool.or_eq_false_iff, Bool.and_eq_false_iff, decide_eq_false_iff_not,
    not_lt] at hskip
  obtain ⟨hnotmem, hrule⟩ := hskip
  -- the zone of the new replica is among the least occupied
  have hleast : zonesOf E = [rep.az] ∨ ∀ z' ∈ zonesOf E, zoneCount E replicas rep.az ≤ zoneCount E replicas z' := by
    rw [spreadOf_of_walked hw hz, hw.spread, List.length_map] at hrule
    rcases hrule with (hlen | hzero) | hmin
    · left
      obtain ⟨w, hw'⟩ := List.length_eq_one_iff.mp (le_antisymm hlen (List.length_pos_of_mem hz))
      rw [hw'] at hz ⊢
      rw [List.mem_singleton.mp hz]
    · right
      intro z' _
      omega
    · right
      intro z' hz'
      have := sizeOfLeastOccupiedAZ_le (List.mem_map_of_mem (f := fun z => (z, (zoneCount E replicas z : Int))) hz')
      omega
  refine ⟨List.nodup_append.mpr ⟨hw.nodup, List.nodup_singleton _, ?_⟩, fun i hi => ?_, ?_, ?_⟩
  · intro a ha b hb hab
    rw [List.mem_singleton.mp hb] at hab
    exact hnotmem (hab ▸ ha)
  · rcases List.mem_append.mp hi with hi | hi
    · exact hw.valid i hi
    · rw [List.mem_singleton.mp hi]
      exact hlt
  · rw [hw.spread, incrSpread_walked hzone]
  · intro x hx y hy
    rw [zoneCount_append_single, zoneCount_append_single, hzone]
    have hxy := hw.balanced x hx y hy
    have hyx := hw.balanced y hy x hx
    by_cases hxz : rep.az = x <;> by_cases hyz : rep.az = y
    · rw [if_pos (by rw [hxz]), if_pos (by rw [hyz])]
      omega
    · -- the new replica's zone was among the least occupied
      rw [if_pos (by rw [hxz]), if_neg (by simpa using hyz)]
      subst hxz
      rcases hleast with hone | hmin
      · rw [hone] at hy
        exact absurd (List.mem_singleton.mp hy).symm hyz
      · have := hmin y hy
        omega
    · rw [if_neg (by simpa using hxz), if_pos (by rw [hyz])]
      omega
    · rw [if_neg (by simpa using hxz), if_neg (by simpa using hyz)]
      omega

theorem zoneCount_cons (i : Nat) (replicas : List Nat) (z : String) :
    zoneCount E (i :: replicas) z = zoneCount E replicas z + if zoneOf E i = some z then 1 else 0 := by
  by_cases h : zoneOf E i = some z <;> simp [zoneCount, h]

theorem sum_map_ite_eq_one {zones : List String} (hnd : zones.Nodup) {a : String} (ha : a ∈ zones) :
    (zones.map fun z => if some a = some z then 1 else 0).sum = 1 := by
  induction zones with
  | nil => cases ha
  | cons z zs ih =>
    rw [List.map_cons, List.sum_cons]
    by_cases h : a = z
    · subst h
      have hrest : (zs.map fun z => if some a = some z then 1 else 0).sum = 0 := by
        refine List.sum_eq_zero fun x hx => ?_
        obtain ⟨y, hy, rfl⟩ := List.mem_map.mp hx
        have : a ≠ y := fun e => (List.nodup_cons.mp hnd).1 (e ▸ hy)
        simp [this]
      rw [hrest, if_pos rfl]
    · rw [if_neg (by simpa using h), ih (List.nodup_cons.mp hnd).2 (List.mem_of_ne_of_mem h ha)]

/-- Each replica is in exactly one zone, so the counts per zone add up to them all. -/
theorem length_eq_sum_zoneCount {replicas : List Nat} (hvalid : ∀ i ∈ replicas, i < E.length) :
    replicas.length = ((zonesOf E).map (zoneCount E replicas)).sum := by
  induction replicas with
  | nil =>
    refine (List.sum_eq_zero fun x hx => ?_).symm
    obtain ⟨z, _, rfl⟩ := List.mem_map.mp hx
    rfl
  | cons i replicas ih =>
    have hi := hvalid i List.mem_cons_self
    have hfun : zoneCount E (i :: replicas) =
        fun z => zoneCount E replicas z + if some E[i].az = some z then 1 else 0 :=
      funext fun z => by rw [zoneCount_cons, zoneOf_of_lt hi]
    rw [hfun, List.sum_map_add, sum_map_ite_eq_one nodup_zonesOf (mem_zonesOf (zoneOf_of_lt hi)),
      ← ih fun j hj => hvalid j (List.mem_cons_of_mem _ hj), List.length_cons]

theorem zoneCount_le_zoneSize {replicas : List Nat} (hnd : replicas.Nodup)
    (hvalid : ∀ i ∈ replicas, i < E.length) (z : String) : zoneCount E replicas z ≤ zoneSize E z := by
  refine List.Nodup.length_le_of_subset (hnd.filter _) fun i hi => ?_
  rw [List.mem_filter] at hi ⊢
  exact ⟨List.mem_range.mpr (hvalid i hi.1), hi.2⟩

/-- No zone holds more than its endpoints nor two more than `z₀` has endpoints, so
the walk holds at most as many replicas as the zones can take that way. -/
theorem Walked.length_le {replicas : List Nat} {azSpread : List (String × Int)}
    (hw : Walked E replicas azSpread) {z₀ : String} (hz₀ : z₀ ∈ zonesOf E) :
    replicas.length ≤ ((zonesOf E).map fun z => min (zoneSize E z) (zoneSize E z₀ + 1)).sum := by
  rw [length_eq_sum_zoneCount hw.valid]
  refine List.sum_le_sum fun z hz => le_min (zoneCount_le_zoneSize hw.nodup hw.valid z) ?_
  have := hw.balanced z hz z₀ hz₀
  have := zoneCount_le_zoneSize hw.nodup hw.valid z₀
  omega

/-- A walk whose every state has fewer replicas than it needs never ends. -/
theorem replicaLoop_eq_none {ring : List Section} (hring : RingOf E ring) {replicationFactor : Nat}
    (hbound : ∀ replicas azSpread, Walked E replicas azSpread → replicas.length < replicationFactor) :
    ∀ (fuel j : Nat) (replicas : List Nat) (azSpread : List (String × Int)),
      Walked E replicas azSpread → replicaLoop ring replicationFactor fuel j replicas azSpread = none := by
  intro fuel
  induction fuel with
  | zero => intro _ _ _ _; rfl
  | succ f ih =>
    intro j replicas azSpread hw
    simp only [replicaLoop, if_pos (hbound replicas azSpread hw)]
    cases hget : ring[(j + 1) % ring.length]? with
    | none => rfl
    | some rep =>
      simp only
      by_cases hskip : skipsReplica rep replicas azSpread = true
      · rw [if_pos hskip]
        exact ih _ _ _ hw
      · rw [if_neg hskip]
        exact ih _ _ _ (hw.add hring (List.mem_of_getElem? hget) (by simpa using hskip))

end Zones

section Run

variable {E : List Endpoint} {ring : List Section} (hring : RingOf E ring) (replicationFactor : Nat)
include hring

/-- A walk that ends holds `replicationFactor` replicas, with what it started from
as a prefix and `Walked` kept. -/
theorem replicaLoop_walked :
    ∀ (fuel j : Nat) (replicas : List Nat) (azSpread : List (String × Int)) (out : List Nat),
      Walked E replicas azSpread → replicas.length ≤ replicationFactor →
      replicaLoop ring replicationFactor fuel j replicas azSpread = some out →
      (∃ azSpread', Walked E out azSpread') ∧ out.length = replicationFactor ∧ replicas <+: out := by
  intro fuel
  induction fuel with
  | zero => intro _ _ _ _ _ _ h; cases h
  | succ f ih =>
    intro j replicas azSpread out hw hle hrun
    simp only [replicaLoop] at hrun
    by_cases hlt : replicas.length < replicationFactor
    · rw [if_pos hlt] at hrun
      cases hget : ring[(j + 1) % ring.length]? with
      | none => simp [hget] at hrun
      | some rep =>
        simp only [hget] at hrun
        by_cases hskip : skipsReplica rep replicas azSpread = true
        · rw [if_pos hskip] at hrun
          exact ih _ _ _ _ hw hle hrun
        · rw [if_neg hskip] at hrun
          have hw' := hw.add hring (List.mem_of_getElem? hget) (by simpa using hskip)
          obtain ⟨hout, hlen, hpre⟩ := ih _ _ _ _ hw' (by simp; omega) hrun
          exact ⟨hout, hlen, (List.prefix_append _ _).trans hpre⟩
    · rw [if_neg hlt] at hrun
      cases hrun
      exact ⟨⟨azSpread, hw⟩, by omega, List.prefix_refl _⟩

omit replicationFactor in
/-- At the start of a walk no section is skipped: nothing is a replica yet and every
zone is empty. -/
theorem skipsReplica_start {rep : Section} (hrep : rep ∈ ring) :
    skipsReplica rep [] ((zonesOf E).map fun az => (az, 0)) = false := by
  have hspread : spreadOf ((zonesOf E).map fun az => (az, (0 : Int))) rep.az = 0 :=
    spreadOf_of_walked walked_nil (mem_zonesOf (hring _ hrep).2)
  simp [skipsReplica, hspread]

/-- The walk of section `i` starts at section `i` itself, and takes its endpoint
first. -/
theorem replicaLoop_first {i : Nat} (hi : i < ring.length) (hrf : 1 ≤ replicationFactor) (fuel : Nat) :
    replicaLoop ring replicationFactor (fuel + 1) (i + ring.length - 1) [] ((zonesOf E).map fun az => (az, 0)) =
      replicaLoop ring replicationFactor fuel i [ring[i].endpointIndex]
        (incrSpread ((zonesOf E).map fun az => (az, 0)) ring[i].az) := by
  have hj : (i + ring.length - 1 + 1) % ring.length = i := by
    rw [Nat.sub_add_cancel (by omega), Nat.add_mod_right, Nat.mod_eq_of_lt hi]
  simp only [replicaLoop, List.length_nil, if_pos (show 0 < replicationFactor by omega), hj,
    List.getElem?_eq_getElem hi, skipsReplica_start hring (List.getElem_mem hi), Bool.false_eq_true,
    if_false, List.nil_append]

end Run

section Progress

variable {E : List Endpoint} {ring : List Section} {replicationFactor : Nat}

/-- One step of the walk on a ring with a section at the next index. -/
theorem replicaLoop_succ_of_lt {fuel j : Nat} {replicas : List Nat} {azSpread : List (String × Int)}
    (hlt : replicas.length < replicationFactor) (hj : (j + 1) % ring.length < ring.length) :
    replicaLoop ring replicationFactor (fuel + 1) j replicas azSpread =
      if skipsReplica ring[(j + 1) % ring.length] replicas azSpread then
        replicaLoop ring replicationFactor fuel ((j + 1) % ring.length) replicas azSpread
      else
        replicaLoop ring replicationFactor fuel ((j + 1) % ring.length)
          (replicas ++ [ring[(j + 1) % ring.length].endpointIndex])
          (incrSpread azSpread ring[(j + 1) % ring.length].az) := by
  simp only [replicaLoop, if_pos hlt, List.getElem?_eq_getElem hj]

theorem replicaLoop_add_fuel :
    ∀ (fuel j : Nat) (replicas : List Nat) (azSpread : List (String × Int)) (out : List Nat) (m : Nat),
      replicaLoop ring replicationFactor fuel j replicas azSpread = some out →
      replicaLoop ring replicationFactor (fuel + m) j replicas azSpread = some out := by
  intro fuel
  induction fuel with
  | zero => intro _ _ _ _ _ h; cases h
  | succ f ih =>
    intro j replicas azSpread out m h
    rw [Nat.add_right_comm]
    simp only [replicaLoop] at h ⊢
    split_ifs at h ⊢ with hlt
    · split at h
      · cases h
      · split_ifs at h ⊢
        · exact ih _ _ _ _ _ h
        · exact ih _ _ _ _ _ h
    · exact h

theorem replicaLoop_isSome_mono {fuel fuel' j : Nat} {replicas : List Nat} {azSpread : List (String × Int)}
    (hle : fuel ≤ fuel') (h : (replicaLoop ring replicationFactor fuel j replicas azSpread).isSome) :
    (replicaLoop ring replicationFactor fuel' j replicas azSpread).isSome := by
  obtain ⟨out, hout⟩ := Option.isSome_iff_exists.mp h
  obtain ⟨m, rfl⟩ := Nat.exists_eq_add_of_le hle
  rw [replicaLoop_add_fuel _ _ _ _ _ m hout]
  rfl

/-- From any index the walk reaches index `p` within the ring's length. -/
theorem exists_steps_to (n j : Nat) {p : Nat} (hp : p < n) : ∃ d < n, (j + 1 + d) % n = p := by
  have hq : (j + 1) % n < n := Nat.mod_lt _ (by omega)
  have hdiv := Nat.div_add_mod (j + 1) n
  generalize (j + 1) % n = q at hq hdiv
  generalize (j + 1) / n = k at hdiv
  by_cases hqp : q ≤ p
  · refine ⟨p - q, by omega, ?_⟩
    rw [show j + 1 + (p - q) = p + n * k by omega, Nat.add_mul_mod_self_left, Nat.mod_eq_of_lt hp]
  · refine ⟨n - q + p, by omega, ?_⟩
    rw [show j + 1 + (n - q + p) = p + n * (k + 1) by rw [Nat.mul_succ]; omega,
      Nat.add_mul_mod_self_left, Nat.mod_eq_of_lt hp]

/-- The walk gets past a state that has a section `p` it would take: it takes a
section within the distance `d` to `p`, and `G` more steps finish from there. -/
theorem replicaLoop_reaches {replicas : List Nat} {azSpread : List (String × Int)}
    (hlt : replicas.length < replicationFactor) {p : Nat} (hp : p < ring.length)
    (hgood : skipsReplica ring[p] replicas azSpread = false) {G : Nat}
    (hnext : ∀ (j' : Nat) (rep : Section), rep ∈ ring → skipsReplica rep replicas azSpread = false →
      (replicaLoop ring replicationFactor G j' (replicas ++ [rep.endpointIndex])
        (incrSpread azSpread rep.az)).isSome) :
    ∀ (d j : Nat), (j + 1 + d) % ring.length = p →
      (replicaLoop ring replicationFactor (d + 1 + G) j replicas azSpread).isSome := by
  intro d
  induction d with
  | zero =>
    intro j hj
    rw [Nat.add_zero] at hj
    rw [Nat.zero_add, Nat.add_comm, replicaLoop_succ_of_lt hlt (hj ▸ hp)]
    simp only [hj, hgood, Bool.false_eq_true, if_false]
    exact hnext _ _ (List.getElem_mem hp) hgood
  | succ d ih =>
    intro j hj
    have hq : (j + 1) % ring.length < ring.length := Nat.mod_lt _ (by omega)
    rw [show d + 1 + 1 + G = (d + 1 + G) + 1 by omega, replicaLoop_succ_of_lt hlt hq]
    split_ifs with hskip
    · -- skipped: one step closer to `p`
      refine ih _ ?_
      rw [Nat.add_assoc, Nat.add_mod, Nat.mod_mod, ← Nat.add_mod, ← hj]
      congr 1
      omega
    · exact replicaLoop_isSome_mono (by omega)
        (hnext _ _ (List.getElem_mem hq) (by simpa using hskip))

variable (hring : RingOf E ring)
include hring

/-- If every state of the walk short of `replicationFactor` replicas has a section it
would take, the walk ends within `replicationFactor` rounds of the ring. -/
theorem replicaLoop_isSome
    (hcover : ∀ replicas azSpread, Walked E replicas azSpread → replicas.length < replicationFactor →
      ∃ p, ∃ hp : p < ring.length, skipsReplica ring[p] replicas azSpread = false) :
    ∀ (k j : Nat) (replicas : List Nat) (azSpread : List (String × Int)),
      Walked E replicas azSpread → replicationFactor ≤ replicas.length + k →
      (replicaLoop ring replicationFactor (k * ring.length + 1) j replicas azSpread).isSome := by
  intro k
  induction k with
  | zero =>
    intro j replicas azSpread _ hk
    simp [replicaLoop, not_lt.mpr (show replicationFactor ≤ replicas.length by omega)]
  | succ k ih =>
    intro j replicas azSpread hw hk
    by_cases hlt : replicas.length < replicationFactor
    · obtain ⟨p, hp, hgood⟩ := hcover replicas azSpread hw hlt
      obtain ⟨d, hd, hdp⟩ := exists_steps_to ring.length j hp
      -- each section taken leaves one fewer round to go
      have hnext : ∀ (j' : Nat) (rep : Section), rep ∈ ring → skipsReplica rep replicas azSpread = false →
          (replicaLoop ring replicationFactor (k * ring.length + 1) j' (replicas ++ [rep.endpointIndex])
            (incrSpread azSpread rep.az)).isSome := fun j' rep hrep hskip =>
        ih _ _ _ (hw.add hring hrep hskip) (by simp; omega)
      exact replicaLoop_isSome_mono (by rw [Nat.succ_mul]; omega)
        (replicaLoop_reaches hlt hp hgood hnext d j hdp)
    · simp [replicaLoop, hlt]

omit hring in
theorem le_sizeOfLeastOccupiedAZ {azSpread : List (String × Int)} {c : Int} (h : ∀ p ∈ azSpread, c ≤ p.2)
    (hc : c ≤ maxInt64) : c ≤ sizeOfLeastOccupiedAZ azSpread := by
  unfold sizeOfLeastOccupiedAZ
  generalize maxInt64 = init at hc
  induction azSpread generalizing init with
  | nil => exact hc
  | cons q qs ih =>
    refine ih (fun p hp => h p (List.mem_cons_of_mem _ hp)) _ ?_
    dsimp only
    split_ifs
    · exact h q List.mem_cons_self
    · exact hc

omit hring in
/-- When every zone has room for its share of `replicationFactor`, the least
occupied zone of a walk short of `replicationFactor` replicas has an endpoint
that is not a replica yet. -/
theorem Walked.exists_free {replicas : List Nat} {azSpread : List (String × Int)}
    (hw : Walked E replicas azSpread) (hlt : replicas.length < replicationFactor)
    (hzones : ∀ z ∈ zonesOf E, replicationFactor ≤ (zonesOf E).length * zoneSize E z)
    {zmin : String} (hzmin : zmin ∈ zonesOf E)
    (hmin : ∀ z ∈ zonesOf E, zoneCount E replicas zmin ≤ zoneCount E replicas z) :
    ∃ e < E.length, e ∉ replicas ∧ zoneOf E e = some zmin := by
  have hsum : (zonesOf E).length * zoneCount E replicas zmin ≤ replicas.length := by
    rw [length_eq_sum_zoneCount hw.valid]
    calc (zonesOf E).length * zoneCount E replicas zmin
        = ((zonesOf E).map fun _ => zoneCount E replicas zmin).sum := by
          rw [List.map_const', List.sum_replicate_nat]
      _ ≤ ((zonesOf E).map (zoneCount E replicas)).sum := List.sum_le_sum hmin
  -- were `zmin` full, every zone would hold its share and the walk would be done
  have hfree : zoneCount E replicas zmin < zoneSize E zmin := by
    by_contra hfull
    have := Nat.mul_le_mul_left (zonesOf E).length (not_lt.mp hfull)
    have := hzones zmin hzmin
    omega
  by_contra hall
  simp only [not_exists, not_and] at hall
  have : zoneSize E zmin ≤ zoneCount E replicas zmin := by
    refine List.Nodup.length_le_of_subset (List.nodup_range.filter _) fun e he => ?_
    simp only [List.mem_filter, List.mem_range, decide_eq_true_eq] at he ⊢
    refine ⟨?_, he.2⟩
    by_contra hnot
    exact hall e he.1 hnot he.2
  omega

/-- Under the same room per zone, a walk short of `replicationFactor` replicas has a
section it would take: one of a free endpoint of the least occupied zone. -/
theorem exists_unskipped (hcovers : ∀ e < E.length, ∃ sec ∈ ring, sec.endpointIndex = e)
    (hzones : ∀ z ∈ zonesOf E, replicationFactor ≤ (zonesOf E).length * zoneSize E z)
    (hrfE : replicationFactor ≤ E.length) (hlen : E.length < 2 ^ 63)
    {replicas : List Nat} {azSpread : List (String × Int)} (hw : Walked E replicas azSpread)
    (hlt : replicas.length < replicationFactor) :
    ∃ p, ∃ hp : p < ring.length, skipsReplica ring[p] replicas azSpread = false := by
  have hzne : zonesOf E ≠ [] := by
    obtain ⟨e, he⟩ := List.exists_mem_of_length_pos (show 0 < E.length by omega)
    exact List.ne_nil_of_mem (List.mem_dedup.mpr (List.mem_map_of_mem (f := Endpoint.az) he))
  cases hm : (zonesOf E).argmin (zoneCount E replicas) with
  | none => exact absurd (List.argmin_eq_none.mp hm) hzne
  | some zmin =>
    have hzmin := List.argmin_mem hm
    have hmin : ∀ z ∈ zonesOf E, zoneCount E replicas zmin ≤ zoneCount E replicas z :=
      fun z hz => List.le_of_mem_argmin hz hm
    obtain ⟨e, he, hnot, hze⟩ := hw.exists_free hlt hzones hzmin hmin
    obtain ⟨sec, hsec, rfl⟩ := hcovers e he
    obtain ⟨p, hp, rfl⟩ := List.mem_iff_getElem.mp hsec
    refine ⟨p, hp, ?_⟩
    have haz : ring[p].az = zmin := Option.some.inj ((hring _ hsec).2.symm.trans hze)
    -- the free endpoint's zone is at the least count, which no other zone undercuts
    have hspread : spreadOf azSpread ring[p].az = zoneCount E replicas zmin := by
      rw [haz, spreadOf_of_walked hw hzmin]
    have hleast : (zoneCount E replicas zmin : Int) ≤ sizeOfLeastOccupiedAZ azSpread := by
      refine le_sizeOfLeastOccupiedAZ (fun q hq => ?_) ?_
      · rw [hw.spread] at hq
        obtain ⟨z, hz, rfl⟩ := List.mem_map.mp hq
        exact Int.ofNat_le.mpr (hmin z hz)
      · have : zoneCount E replicas zmin ≤ replicas.length := List.length_filter_le _ _
        simp only [maxInt64]
        omega
    simp only [skipsReplica, Bool.or_eq_false_iff, decide_eq_false_iff_not, Bool.and_eq_false_iff,
      not_lt, hspread]
    exact ⟨hnot, Or.inr hleast⟩

end Progress

section Ring

theorem ringOf_ringSectionsOf (E : List Endpoint) (sectionsPerNode : Nat) :
    RingOf E (ringSectionsOf E sectionsPerNode) := by
  intro s hs
  simp only [ringSectionsOf, List.mem_flatMap, List.mem_map] at hs
  obtain ⟨⟨endpoint, i⟩, hmem, k, _, rfl⟩ := hs
  have hget := List.mk_mem_zipIdx_iff_getElem?.mp hmem
  have hlt : i < E.length := (List.getElem?_eq_some_iff.mp hget).1
  refine ⟨hlt, ?_⟩
  rw [zoneOf, hget]
  rfl

theorem ringOf_insertionSort {E : List Endpoint} {ring : List Section} (hring : RingOf E ring)
    (r : Section → Section → Prop) [DecidableRel r] : RingOf E (ring.insertionSort r) :=
  fun s hs => hring s (List.mem_insertionSort r |>.mp hs)

/-- Every endpoint has a section on the ring, its first one. -/
theorem ringSectionsOf_covers (E : List Endpoint) {sectionsPerNode : Nat} (hspn : 1 ≤ sectionsPerNode) :
    ∀ e < E.length, ∃ sec ∈ ringSectionsOf E sectionsPerNode, sec.endpointIndex = e := by
  intro e he
  refine ⟨⟨E[e].az, e, XXHash.sum64 (stringBytes (E[e].address ++ ":" ++ toString (0 + 1))), []⟩, ?_, rfl⟩
  simp only [ringSectionsOf, List.mem_flatMap, List.mem_map, List.mem_range]
  exact ⟨(E[e], e), List.mk_mem_zipIdx_iff_getElem?.mpr (List.getElem?_eq_getElem he), 0, by omega, rfl⟩

theorem covers_insertionSort {E : List Endpoint} {ring : List Section}
    (hcovers : ∀ e < E.length, ∃ sec ∈ ring, sec.endpointIndex = e) (r : Section → Section → Prop)
    [DecidableRel r] : ∀ e < E.length, ∃ sec ∈ ring.insertionSort r, sec.endpointIndex = e := by
  intro e he
  obtain ⟨sec, hsec, hidx⟩ := hcovers e he
  exact ⟨sec, List.mem_insertionSort r |>.mpr hsec, hidx⟩

end Ring

section Construction

/-- The membership half of `mapM` in `Option`: each output is an image. -/
theorem exists_of_mapM_eq_some {α β : Type} {f : α → Option β} :
    ∀ {l : List α} {out : List β}, l.mapM f = some out → ∀ y ∈ out, ∃ x ∈ l, f x = some y
  | [], out, h, y, hy => by
    cases h
    cases hy
  | a :: l, out, h, y, hy => by
    rw [List.mapM_cons] at h
    cases hfa : f a with
    | none => simp [hfa] at h
    | some b =>
      cases hl : l.mapM f with
      | none => simp [hfa, hl] at h
      | some bs =>
        simp only [hfa, hl, Option.bind_eq_bind, Option.bind_some, Option.pure_def, Option.some.injEq] at h
        subst h
        rcases List.mem_cons.mp hy with rfl | hy
        · exact ⟨a, List.mem_cons_self, hfa⟩
        · obtain ⟨x, hx, hfx⟩ := exists_of_mapM_eq_some hl y hy
          exact ⟨x, List.mem_cons_of_mem _ hx, hfx⟩

/-- `mapM` in `Option` succeeds where every image does. -/
theorem mapM_isSome {α β : Type} {f : α → Option β} :
    ∀ {l : List α}, (∀ x ∈ l, (f x).isSome) → ∃ out, l.mapM f = some out ∧ out.length = l.length
  | [], _ => ⟨[], rfl, rfl⟩
  | a :: l, h => by
    obtain ⟨b, hb⟩ := Option.isSome_iff_exists.mp (h a List.mem_cons_self)
    obtain ⟨bs, hbs, hlen⟩ := mapM_isSome fun x hx => h x (List.mem_cons_of_mem _ hx)
    refine ⟨b :: bs, ?_, by simp [hlen]⟩
    simp [List.mapM_cons, hb, hbs]

variable {E : List Endpoint} {ring : List Section} (hring : RingOf E ring) {replicationFactor : Nat}
include hring

/-- Every section `calculateSectionReplicas` gives back has `replicationFactor`
distinct replicas, its own endpoint first, with no zone two above another. -/
theorem calculateSectionReplicas_spec {fuel : Nat} (hrf : 1 ≤ replicationFactor) {out : List Section}
    (h : calculateSectionReplicas fuel ring replicationFactor (zonesOf E) = some out) :
    ∀ sec ∈ out, (∃ azSpread, Walked E sec.replicas azSpread) ∧
      sec.replicas.length = replicationFactor ∧ sec.replicas.head? = some sec.endpointIndex := by
  intro sec hsec
  obtain ⟨⟨s, i⟩, hmem, hf⟩ := exists_of_mapM_eq_some h sec hsec
  have hget := List.mk_mem_zipIdx_iff_getElem?.mp hmem
  obtain ⟨hi, hs⟩ := List.getElem?_eq_some_iff.mp hget
  cases hloop : replicaLoop ring replicationFactor fuel (i + ring.length - 1) []
      ((zonesOf E).map fun az => (az, 0)) with
  | none => simp [hloop] at hf
  | some replicas =>
    simp only [hloop, Option.bind_eq_bind, Option.bind_some, Option.pure_def, Option.some.injEq] at hf
    subst hf
    cases fuel with
    | zero => cases hloop
    | succ f =>
      rw [replicaLoop_first hring replicationFactor hi hrf] at hloop
      have hw := walked_nil.add hring (List.getElem_mem hi) (skipsReplica_start hring (List.getElem_mem hi))
      obtain ⟨hout, hlen, hpre⟩ := replicaLoop_walked hring replicationFactor _ _ _ _ _ hw (by simpa using hrf) hloop
      refine ⟨hout, hlen, ?_⟩
      obtain ⟨t, rfl⟩ := hpre
      simp [hs]

/-- Where every walk state has a section it would take, `calculateSectionReplicas`
gives every section its replicas within `replicationFactor` rounds of the ring. -/
theorem calculateSectionReplicas_isSome
    (hcover : ∀ replicas azSpread, Walked E replicas azSpread → replicas.length < replicationFactor →
      ∃ p, ∃ hp : p < ring.length, skipsReplica ring[p] replicas azSpread = false)
    (fuel : Nat) (hfuel : replicationFactor * ring.length + 1 ≤ fuel) :
    ∃ out, calculateSectionReplicas fuel ring replicationFactor (zonesOf E) = some out ∧
      out.length = ring.length := by
  obtain ⟨out, hout, hlen⟩ := mapM_isSome (l := ring.zipIdx)
    (f := fun x => do
      let replicas ← replicaLoop ring replicationFactor fuel (x.2 + ring.length - 1) []
        ((zonesOf E).map fun az => (az, 0))
      pure { x.1 with replicas }) fun x _ => by
    have := replicaLoop_isSome_mono hfuel
      (replicaLoop_isSome hring hcover replicationFactor (x.2 + ring.length - 1) [] _ walked_nil
        (by simp))
    obtain ⟨r, hr⟩ := Option.isSome_iff_exists.mp this
    simp [hr]
  exact ⟨out, hout, by rw [hlen, List.length_zipIdx]⟩

end Construction

section Hashring

/-- If some zone `z₀` is so small that the zones can hold fewer than
`replicationFactor` replicas with none two above `z₀`'s endpoints, no walk of
`calculateSectionReplicas` ends, whatever the fuel: `newKetamaHashring` hangs. -/
theorem newKetamaHashring_hangs (endpoints : List Endpoint) (sectionsPerNode replicationFactor : Nat)
    (hspn : 1 ≤ sectionsPerNode) (hrf : replicationFactor ≤ endpoints.length) (z₀ : String)
    (hz₀ : z₀ ∈ zonesOf endpoints)
    (hsmall : ((zonesOf endpoints).map fun z =>
      min (zoneSize endpoints z) (zoneSize endpoints z₀ + 1)).sum < replicationFactor)
    (fuel : Nat) : newKetamaHashring fuel endpoints sectionsPerNode replicationFactor = .ok none := by
  have hE : endpoints ≠ [] := by
    rintro rfl
    cases hz₀
  set ring := (ringSectionsOf endpoints sectionsPerNode).insertionSort fun a b => sectionLe a b
  have hring : RingOf endpoints ring :=
    ringOf_insertionSort (ringOf_ringSectionsOf endpoints sectionsPerNode) _
  have hne : ring ≠ [] := by
    obtain ⟨sec, hsec, -⟩ :=
      covers_insertionSort (ringSectionsOf_covers endpoints hspn) (fun a b => sectionLe a b) 0
        (List.length_pos_of_ne_nil hE)
    exact List.ne_nil_of_mem hsec
  -- the walk from the first section already fails, and `mapM` stops there
  obtain ⟨s, rest, hcons⟩ := List.exists_cons_of_ne_nil hne
  have hloop := replicaLoop_eq_none hring
    (fun replicas azSpread hw => lt_of_le_of_lt (hw.length_le hz₀) hsmall)
    fuel (0 + ring.length - 1) [] _ walked_nil
  have hcalc : calculateSectionReplicas fuel ring replicationFactor (zonesOf endpoints) = none := by
    rw [calculateSectionReplicas, hcons, List.zipIdx_cons, List.mapM_cons]
    rw [hcons, List.length_cons, Nat.zero_add, Nat.add_sub_cancel] at hloop
    simp [hloop]
  simp only [newKetamaHashring, if_neg (not_lt.mpr hrf)]
  rw [show (endpoints.map Endpoint.az).dedup = zonesOf endpoints from rfl, hcalc]
  rfl


/-- Three endpoints in zone `A`, one in `B`, and a replication factor of four: each
walk takes `a`, `b` and one more of `A`, then skips every section forever. -/
theorem newKetamaHashring_uneven_zones_hangs (fuel : Nat) :
    newKetamaHashring fuel [⟨"a", "A"⟩, ⟨"b", "B"⟩, ⟨"c", "A"⟩, ⟨"d", "A"⟩] 1 4 = .ok none :=
  newKetamaHashring_hangs _ 1 4 (le_refl 1) (by decide) "B" (by decide +kernel)
    (by decide +kernel) fuel

theorem length_ringSectionsOf (E : List Endpoint) (sectionsPerNode : Nat) :
    (ringSectionsOf E sectionsPerNode).length = E.length * sectionsPerNode := by
  simp [ringSectionsOf, List.length_flatMap, List.map_const']

/-- What `newKetamaHashring` builds, when it ends: every section has
`replicationFactor` distinct replicas, its own endpoint first, with no zone two
above another. -/
theorem newKetamaHashring_sections {fuel : Nat} {endpoints : List Endpoint}
    {sectionsPerNode replicationFactor : Nat} (hrf : 1 ≤ replicationFactor) {c : KetamaHashring}
    (h : newKetamaHashring fuel endpoints sectionsPerNode replicationFactor = .ok (some c)) :
    c.endpoints = endpoints ∧ ∀ sec ∈ c.sections, (∃ azSpread, Walked endpoints sec.replicas azSpread) ∧
      sec.replicas.length = replicationFactor ∧ sec.replicas.head? = some sec.endpointIndex := by
  have hring : RingOf endpoints
      ((ringSectionsOf endpoints sectionsPerNode).insertionSort fun a b => sectionLe a b) :=
    ringOf_insertionSort (ringOf_ringSectionsOf endpoints sectionsPerNode) _
  simp only [newKetamaHashring] at h
  split_ifs at h
  cases hcalc : calculateSectionReplicas fuel
      ((ringSectionsOf endpoints sectionsPerNode).insertionSort fun a b => sectionLe a b)
      replicationFactor (zonesOf endpoints) with
  | none =>
    rw [show (endpoints.map Endpoint.az).dedup = zonesOf endpoints from rfl, hcalc] at h
    cases h
  | some sections =>
    rw [show (endpoints.map Endpoint.az).dedup = zonesOf endpoints from rfl, hcalc] at h
    cases h
    exact ⟨rfl, calculateSectionReplicas_spec hring hrf hcalc⟩

/-- When every zone holds at least its share `⌈replicationFactor / zones⌉`, that is
`replicationFactor ≤ zones * size`, `newKetamaHashring` ends within
`replicationFactor` rounds of the ring for each section. The bound on the number of
endpoints is Go's: the counts of `azSpread` stay below `math.MaxInt64`. -/
theorem newKetamaHashring_terminates (endpoints : List Endpoint) (sectionsPerNode replicationFactor : Nat)
    (hspn : 1 ≤ sectionsPerNode) (hrf : replicationFactor ≤ endpoints.length) (hlen : endpoints.length < 2 ^ 63)
    (hzones : ∀ z ∈ zonesOf endpoints, replicationFactor ≤ (zonesOf endpoints).length * zoneSize endpoints z)
    {fuel : Nat} (hfuel : replicationFactor * (endpoints.length * sectionsPerNode) + 1 ≤ fuel) :
    ∃ c, newKetamaHashring fuel endpoints sectionsPerNode replicationFactor = .ok (some c) ∧
      c.sections.length = endpoints.length * sectionsPerNode := by
  set ring := (ringSectionsOf endpoints sectionsPerNode).insertionSort fun a b => sectionLe a b
  have hring : RingOf endpoints ring :=
    ringOf_insertionSort (ringOf_ringSectionsOf endpoints sectionsPerNode) _
  have hcovers := covers_insertionSort (ringSectionsOf_covers endpoints hspn) (fun a b => sectionLe a b)
  have hlenRing : ring.length = endpoints.length * sectionsPerNode := by
    rw [List.length_insertionSort, length_ringSectionsOf]
  obtain ⟨sections, hcalc, hsections⟩ := calculateSectionReplicas_isSome hring
    (fun replicas azSpread hw hlt => exists_unskipped hring hcovers hzones hrf hlen hw hlt)
    fuel (by rw [hlenRing]; exact hfuel)
  refine ⟨⟨endpoints, sections, endpoints.length⟩, ?_, by rw [hsections, hlenRing]⟩
  simp only [newKetamaHashring, if_neg (not_lt.mpr hrf)]
  rw [show (endpoints.map Endpoint.az).dedup = zonesOf endpoints from rfl, hcalc]
  rfl

end Hashring

end Thanos.Receive
