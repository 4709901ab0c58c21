import Mathlib
import Thanos.Go.XXHash

/-! # Which series a shard of a query accepts

`ShardInfo.Matcher` builds the matcher a store applies to each series of a sharded
query: the series' labels kept by `shardByLabel` (those in the sharding set when
sharding `by`, those outside it when sharding `without`) are written into a buffer,
name and value each followed by the byte `0xff`, and the series belongs to the
shard that the buffer's xxHash names modulo the number of shards. -/

namespace Thanos.Store

/-- `labelpb.ZLabel`. -/
structure ZLabel where
  name : String
  value : String
  deriving DecidableEq, Repr

/-- `storepb.ShardInfo`. -/
structure ShardInfo where
  shardIndex : Int
  totalShards : Int
  by_ : Bool
  labels : Option (List String)
  deriving DecidableEq, Repr

/-- `storepb.ShardMatcher`, with the label set as the list of its members. -/
structure ShardMatcher where
  shardingLabelset : List String
  isSharded : Bool
  by_ : Bool
  totalShards : Int
  shardIndex : Int
  deriving DecidableEq, Repr

def sep : UInt8 := 0xff

/-- The bytes of a Go string. -/
def bytesOf (s : String) : List UInt8 := s.toList.flatMap String.utf8EncodeChar

def shardByLabel (labelSet : List String) (zlabel : ZLabel) (groupingBy : Bool) : Bool :=
  let shardHasLabel := decide (zlabel.name ∈ labelSet)
  if groupingBy && shardHasLabel then true
  else if !groupingBy && !shardHasLabel then true
  else false

/-- The buffer `MatchesZLabels` hashes. -/
def shardBuffer (s : ShardMatcher) (zLabels : List ZLabel) : List UInt8 :=
  zLabels.flatMap fun lbl =>
    if shardByLabel s.shardingLabelset lbl s.by_ then bytesOf lbl.name ++ [sep] ++ bytesOf lbl.value ++ [sep]
    else []

/-- `uint64(x)` of an `int64`. -/
def toUint64 (x : Int) : Nat := (x % 2 ^ 64).toNat

def ShardMatcher.matchesZLabels (s : ShardMatcher) (zLabels : List ZLabel) : Bool :=
  -- match all series when the query is not sharded
  if !s.isSharded then true
  else (XXHash.sum64 (shardBuffer s zLabels)).toNat % toUint64 s.totalShards = toUint64 s.shardIndex

def ShardInfo.labelSet (m : ShardInfo) : List String := m.labels.getD []

def ShardInfo.matcher (m : ShardInfo) : ShardMatcher :=
  if m.totalShards < 1 then ⟨[], false, false, 0, 0⟩
  else ⟨m.labelSet, true, m.by_, m.totalShards, m.shardIndex⟩

theorem toUint64_of_nonneg {x : Int} (h0 : 0 ≤ x) (h : x < 2 ^ 64) : toUint64 x = x.toNat := by
  rw [toUint64, Int.emod_eq_of_lt h0 h]

/-- The shard a label list belongs to: its buffer's hash modulo the shard count. -/
theorem matcher_matchesZLabels {m : ShardInfo} (hn : 1 ≤ m.totalShards) (hbound : m.totalShards < 2 ^ 63)
    (hi : 0 ≤ m.shardIndex) (hin : m.shardIndex < m.totalShards) (zLabels : List ZLabel) :
    m.matcher.matchesZLabels zLabels =
      decide ((XXHash.sum64 (shardBuffer m.matcher zLabels)).toNat % m.totalShards.toNat =
        m.shardIndex.toNat) := by
  have hnot : ¬ m.totalShards < 1 := by omega
  simp only [ShardMatcher.matchesZLabels, ShardInfo.matcher, if_neg hnot, Bool.not_true,
    Bool.false_eq_true, if_false]
  rw [toUint64_of_nonneg (by omega) (by omega), toUint64_of_nonneg hi (by omega)]

/-- A sharded matcher accepts each series in exactly one shard. -/
theorem matchesZLabels_unique {m : ShardInfo} (hn : 1 ≤ m.totalShards) (hbound : m.totalShards < 2 ^ 63)
    (zLabels : List ZLabel) :
    ∃! i, 0 ≤ i ∧ i < m.totalShards ∧ ({ m with shardIndex := i }).matcher.matchesZLabels zLabels := by
  have hnot : ¬ m.totalShards < 1 := by omega
  -- the buffer does not depend on the shard index
  set h := (XXHash.sum64 (shardBuffer m.matcher zLabels)).toNat with hh
  have hbuf : ∀ i, shardBuffer ({ m with shardIndex := i }).matcher zLabels = shardBuffer m.matcher zLabels := by
    intro i
    simp only [ShardInfo.matcher, if_neg hnot]
    rfl
  have hmod : h % m.totalShards.toNat < m.totalShards.toNat := Nat.mod_lt _ (by omega)
  have hi0 : (0 : Int) ≤ (h % m.totalShards.toNat : Nat) := by omega
  have hin : ((h % m.totalShards.toNat : Nat) : Int) < m.totalShards := by omega
  refine ⟨(h % m.totalShards.toNat : Nat), ⟨hi0, hin, ?_⟩, ?_⟩
  · rw [matcher_matchesZLabels (m := { m with shardIndex := (h % m.totalShards.toNat : Nat) }) hn hbound
      hi0 hin, hbuf, ← hh, Int.toNat_natCast]
    exact decide_eq_true rfl
  · rintro i ⟨hi0, hin, hmatch⟩
    rw [matcher_matchesZLabels (m := { m with shardIndex := i }) hn hbound hi0 hin, hbuf, ← hh] at hmatch
    simp only [decide_eq_true_eq] at hmatch
    omega

end Thanos.Store
