import Mathlib
import Thanos.Go.Sort
import Thanos.Go.XXHash

/-! # The ketama hashring of the receivers

`newKetamaHashring` puts `sectionsPerNode` sections of each endpoint on a ring,
at the xxHash of `address:i`, sorts them, and gives each section its replicas: the
walk clockwise from the section takes each endpoint it meets once, skipping an
endpoint whose availability zone already holds more replicas than the least
occupied zone, until it has `replicationFactor` of them. `GetN` binary searches the
ring for the first section at or after a series' hash and returns its `n`-th
replica.

The walk of `calculateSectionReplicas` has no bound of its own: the model runs it on
a fuel given to `newKetamaHashring`, and `none` is a walk that did not finish. The
zones map and `azSpread` are lists: the zones in the order their first endpoint
comes, and `azSpread` a count per zone. `sort.Sort` is not stable; the model sorts
with a stable insertion sort, which gives Go's order whenever the section hashes are
distinct; on tied hashes Go's order depends on the steps of its sort. Go's `j := i - 1` is
`i + len - 1`, the same index modulo the ring's length. -/

namespace Thanos.Receive

open Go.Sort

structure Endpoint where
  address : String
  az : String
  deriving DecidableEq, Repr

structure Section where
  az : String
  endpointIndex : Nat
  hash : UInt64
  replicas : List Nat
  deriving DecidableEq, Repr

structure KetamaHashring where
  endpoints : List Endpoint
  sections : List Section
  numEndpoints : Nat
  deriving DecidableEq, Repr

/-- The bytes of a Go string. -/
def stringBytes (s : String) : List UInt8 := s.toList.flatMap String.utf8EncodeChar

def maxInt64 : Int := 2 ^ 63 - 1

/-- `azSpread[az]`, zero for a zone not in the map. -/
def spreadOf (azSpread : List (String × Int)) (az : String) : Int := (azSpread.lookup az).getD 0

/-- `azSpread[az]++` for a zone in the map. -/
def incrSpread (azSpread : List (String × Int)) (az : String) : List (String × Int) :=
  azSpread.map fun p => if p.1 = az then (p.1, p.2 + 1) else p

def sizeOfLeastOccupiedAZ (azSpread : List (String × Int)) : Int :=
  azSpread.foldl (fun minValue p => if p.2 < minValue then p.2 else minValue) maxInt64

/-- Whether the walk skips a section's endpoint: it is a replica already, or its
zone holds more replicas than the least occupied one. -/
def skipsReplica (rep : Section) (replicas : List Nat) (azSpread : List (String × Int)) : Bool :=
  decide (rep.endpointIndex ∈ replicas) ||
    (decide (azSpread.length > 1) && decide (spreadOf azSpread rep.az > 0) &&
      decide (spreadOf azSpread rep.az > sizeOfLeastOccupiedAZ azSpread))

/-- The walk of `calculateSectionReplicas` from the section after `j`, for at most
`fuel` sections. -/
def replicaLoop (ring : List Section) (replicationFactor : Nat) :
    Nat → Nat → List Nat → List (String × Int) → Option (List Nat)
  | 0, _, _, _ => none
  | fuel + 1, j, replicas, azSpread =>
    if replicas.length < replicationFactor then
      let j := (j + 1) % ring.length
      match ring[j]? with
      | none => none
      | some rep =>
        if skipsReplica rep replicas azSpread then replicaLoop ring replicationFactor fuel j replicas azSpread
        else
          replicaLoop ring replicationFactor fuel j (replicas ++ [rep.endpointIndex])
            (incrSpread azSpread rep.az)
    else some replicas

/-- `calculateSectionReplicas`: each section's replicas, the zones each starting
at zero. -/
def calculateSectionReplicas (fuel : Nat) (ring : List Section) (replicationFactor : Nat)
    (availabilityZones : List String) : Option (List Section) :=
  ring.zipIdx.mapM fun (s, i) => do
    let replicas ← replicaLoop ring replicationFactor fuel (i + ring.length - 1) []
      (availabilityZones.map fun az => (az, 0))
    pure { s with replicas }

/-- The sections of the ring, before sorting: `sectionsPerNode` per endpoint. -/
def ringSectionsOf (endpoints : List Endpoint) (sectionsPerNode : Nat) : List Section :=
  endpoints.zipIdx.flatMap fun (endpoint, endpointIndex) =>
    (List.range sectionsPerNode).map fun k =>
      ⟨endpoint.az, endpointIndex,
        XXHash.sum64 (stringBytes (endpoint.address ++ ":" ++ toString (k + 1))), []⟩

def sectionLe (a b : Section) : Bool := a.hash ≤ b.hash

/-- `newKetamaHashring`, with `fuel` for each walk: `.ok none` is a walk that did not
finish within it. -/
def newKetamaHashring (fuel : Nat) (endpoints : List Endpoint) (sectionsPerNode : Nat)
    (replicationFactor : Nat) : Except String (Option KetamaHashring) :=
  if endpoints.length < replicationFactor then
    .error "ketama: amount of endpoints needs to be larger than replication factor"
  else
    let availabilityZones := (endpoints.map Endpoint.az).dedup
    let ringSections := (ringSectionsOf endpoints sectionsPerNode).insertionSort fun a b => sectionLe a b
    .ok ((calculateSectionReplicas fuel ringSections replicationFactor availabilityZones).map
      fun sections => ⟨endpoints, sections, endpoints.length⟩)

/-- `labelpb.HashWithPrefix`: the xxHash of the prefix `pre` and the labels, each
followed by the byte `0xff`. -/
def hashWithPrefix (pre : String) (lbls : List (String × String)) : UInt64 :=
  XXHash.sum64 (stringBytes pre ++ [0xff] ++
    lbls.flatMap fun l => stringBytes l.1 ++ [0xff] ++ stringBytes l.2 ++ [0xff])

/-- `ketamaHashring.GetN`: the `n`-th replica of the first section at or after the
series' hash; `none` is an index out of range, which panics. -/
def KetamaHashring.getN (c : KetamaHashring) (tenant : String) (lbls : List (String × String)) (n : Nat) :
    Except String (Option Endpoint) :=
  if n ≥ c.numEndpoints then
    .error ("insufficient nodes; have " ++ toString c.numEndpoints ++ ", want " ++ toString (n + 1))
  else
    let v := hashWithPrefix tenant lbls
    let i := search c.sections.length fun i => match c.sections[i]? with
      | some s => decide (s.hash ≥ v)
      | none => true
    let i := if i = c.sections.length then 0 else i
    .ok (do
      let s ← c.sections[i]?
      let endpointIndex ← s.replicas[n]?
      c.endpoints[endpointIndex]?)

end Thanos.Receive
