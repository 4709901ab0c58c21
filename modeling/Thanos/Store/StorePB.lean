import Thanos.Store.ShardInfo
import Thanos.Lib.Compare
import Mathlib.Data.String.Basic

/-! # The series messages of the store API

`storepb.Chunk`, `storepb.AggrChunk`, `storepb.Series` and `storepb.SeriesResponse`
with the comparisons the proxy uses on them. `AggrChunk.Compare` orders chunks by
minimum time, then maximum time, then sub-chunk by sub-chunk; it is positive when
the receiver is the smaller one and zero exactly on chunks with the same times and
the same type and bytes in every sub-chunk (`AggrChunk.compare_eq_zero_iff`).

A response's `Hints` payload is kept as a string: nothing here reads it. Labels are
`labelpb.ZLabel` lists, which the proxy compares with Prometheus' `labels.Compare`. -/

namespace Thanos.Store

/-- `storepb.Chunk`: the encoding as its enum number. -/
structure Chunk where
  type : Nat
  data : List UInt8
  hash : UInt64
  deriving DecidableEq, Repr

/-- `storepb.AggrChunk`: a raw chunk, or the aggregates of a downsampled one. -/
structure AggrChunk where
  minTime : Int
  maxTime : Int
  raw : Option Chunk
  count : Option Chunk
  sum : Option Chunk
  min : Option Chunk
  max : Option Chunk
  counter : Option Chunk
  deriving DecidableEq, Repr

/-- Go's `bytes.Compare`. -/
def bytesCompare : List UInt8 → List UInt8 → Int
  | [], [] => 0
  | [], _ :: _ => -1
  | _ :: _, [] => 1
  | a :: as, b :: bs => if a < b then -1 else if a > b then 1 else bytesCompare as bs

/-- `(*Chunk).Compare`, a missing chunk being the larger. -/
def Chunk.compare : Option Chunk → Option Chunk → Int
  | none, none => 0
  | some _, none => 1
  | none, some _ => -1
  | some m, some b => if m.type < b.type then 1 else if m.type > b.type then -1 else bytesCompare m.data b.data

/-- The first non-zero comparison, as the loop of `AggrChunk.Compare` takes it. -/
def firstNonZero : List Int → Int
  | [] => 0
  | c :: cs => if c = 0 then firstNonZero cs else c

/-- `AggrChunk.Compare`: positive when `m` is the smaller chunk. -/
def AggrChunk.compare (m b : AggrChunk) : Int :=
  if m.minTime < b.minTime then 1
  else if m.minTime > b.minTime then -1
  else if m.maxTime < b.maxTime then 1
  else if m.maxTime > b.maxTime then -1
  else firstNonZero [Chunk.compare m.raw b.raw, Chunk.compare m.count b.count, Chunk.compare m.sum b.sum,
    Chunk.compare m.min b.min, Chunk.compare m.max b.max, Chunk.compare m.counter b.counter]

/-- `storepb.Series`. -/
structure Series where
  labels : List ZLabel
  chunks : List AggrChunk
  deriving DecidableEq, Repr

/-- `storepb.SeriesResponse`: a series, a warning or hints. -/
inductive SeriesResponse where
  | series (s : Series)
  | warning (w : String)
  | hints (h : String)
  deriving DecidableEq, Repr

def SeriesResponse.getSeries : SeriesResponse → Option Series
  | .series s => some s
  | _ => none

/-- Prometheus' `labels.Compare`: name, then value, label by label, then length. -/
def labelsCompare : List ZLabel → List ZLabel → Int
  | [], [] => 0
  | [], _ :: _ => -1
  | _ :: _, [] => 1
  | a :: as, b :: bs =>
    if a.name ≠ b.name then (if a.name < b.name then -1 else 1)
    else if a.value ≠ b.value then (if a.value < b.value then -1 else 1)
    else labelsCompare as bs

section Compare

theorem bytesCompare_eq_zero_iff : ∀ {a b : List UInt8}, bytesCompare a b = 0 ↔ a = b
  | [], [] => by simp [bytesCompare]
  | [], _ :: _ => by simp [bytesCompare]
  | _ :: _, [] => by simp [bytesCompare]
  | x :: xs, y :: ys => by
    by_cases hlt : x < y
    · simp [bytesCompare, hlt, UInt8.ne_of_lt hlt]
    · by_cases hgt : x > y
      · simp [bytesCompare, hlt, hgt, (UInt8.ne_of_lt hgt).symm]
      · have hxy : x = y := UInt8.le_antisymm (UInt8.not_lt.mp hgt) (UInt8.not_lt.mp hlt)
        simp [bytesCompare, hxy, bytesCompare_eq_zero_iff]

/-- Two chunks compare equal exactly when they have the same type and bytes. -/
theorem Chunk.compare_eq_zero_iff {m b : Option Chunk} :
    Chunk.compare m b = 0 ↔ m.map (fun c => (c.type, c.data)) = b.map fun c => (c.type, c.data) := by
  cases m with
  | none => cases b <;> simp [Chunk.compare]
  | some m =>
    cases b with
    | none => simp [Chunk.compare]
    | some b =>
      by_cases hlt : m.type < b.type
      · simp [Chunk.compare, hlt, Nat.ne_of_lt hlt]
      · by_cases hgt : m.type > b.type
        · simp [Chunk.compare, hlt, hgt, Nat.ne_of_gt hgt]
        · have hty : m.type = b.type := by omega
          simp [Chunk.compare, hty, bytesCompare_eq_zero_iff]

theorem firstNonZero_eq_zero_iff : ∀ {cs : List Int}, firstNonZero cs = 0 ↔ ∀ c ∈ cs, c = 0
  | [] => by simp [firstNonZero]
  | c :: cs => by
    by_cases hc : c = 0 <;> simp [firstNonZero, hc, firstNonZero_eq_zero_iff]

/-- The sub-chunks of an aggregate chunk by type and bytes, in the order `Compare`
reads them. -/
def AggrChunk.content (m : AggrChunk) : List (Option (Nat × List UInt8)) :=
  [m.raw, m.count, m.sum, m.min, m.max, m.counter].map (Option.map fun c => (c.type, c.data))

/-- `AggrChunk.Compare` is zero exactly on chunks with the same times and the same
type and bytes in every sub-chunk. -/
theorem AggrChunk.compare_eq_zero_iff {m b : AggrChunk} :
    m.compare b = 0 ↔ m.minTime = b.minTime ∧ m.maxTime = b.maxTime ∧ m.content = b.content := by
  unfold AggrChunk.compare
  split_ifs with h1 h2 h3 h4
  · exact ⟨fun h => absurd h (by decide), fun h => absurd h.1 (by omega)⟩
  · exact ⟨fun h => absurd h (by decide), fun h => absurd h.1 (by omega)⟩
  · exact ⟨fun h => absurd h (by decide), fun h => absurd h.2.1 (by omega)⟩
  · exact ⟨fun h => absurd h (by decide), fun h => absurd h.2.1 (by omega)⟩
  · have hmin : m.minTime = b.minTime := by omega
    have hmax : m.maxTime = b.maxTime := by omega
    simp [firstNonZero_eq_zero_iff, Chunk.compare_eq_zero_iff, AggrChunk.content, hmin, hmax]

/-! The comparisons are lawful: each is built from the comparisons of its parts by
the combinators of `Cmp`. -/

theorem bytesCompare_eq_listCmp : ∀ a b : List UInt8,
    bytesCompare a b = Cmp.listCmp (fun x y : UInt8 => Cmp.ltCmp x.toNat y.toNat) a b
  | [], [] => rfl
  | [], _ :: _ => rfl
  | _ :: _, [] => rfl
  | x :: xs, y :: ys => by
    simp only [bytesCompare, Cmp.listCmp, Cmp.ltCmp, gt_iff_lt, UInt8.lt_iff_toNat_lt, bytesCompare_eq_listCmp xs ys]
    rcases Nat.lt_trichotomy x.toNat y.toNat with h | h | h
    · simp [h]
    · simp [h]
    · simp [h, Nat.lt_asymm h]

theorem Chunk.compare_eq_optionCmp (m b : Option Chunk) :
    Chunk.compare m b =
      Cmp.optionCmp (Cmp.lex (fun x y : Chunk => Cmp.ltCmp y.type x.type) fun x y => bytesCompare x.data y.data) m b := by
  cases m with
  | none => cases b <;> rfl
  | some m =>
    cases b with
    | none => rfl
    | some b =>
      simp only [Chunk.compare, Cmp.optionCmp, Cmp.lex, Cmp.ltCmp, gt_iff_lt]
      rcases Nat.lt_trichotomy m.type b.type with h | h | h
      · simp [h, Nat.lt_asymm h]
      · simp [h]
      · simp [h, Nat.lt_asymm h]

theorem firstNonZero_map_eq_lexAll {α : Type} (cs : List (α → α → Int)) (a b : α) :
    firstNonZero (cs.map fun c => c a b) = Cmp.lexAll cs a b := by
  induction cs with
  | nil => rfl
  | cons c cs ih => simp [firstNonZero, Cmp.lexAll, Cmp.lex, ih]

/-- The comparisons `AggrChunk.Compare` makes in turn. -/
def AggrChunk.compareSteps : List (AggrChunk → AggrChunk → Int) :=
  [fun m b => Cmp.ltCmp b.minTime m.minTime, fun m b => Cmp.ltCmp b.maxTime m.maxTime,
    fun m b => Chunk.compare m.raw b.raw, fun m b => Chunk.compare m.count b.count,
    fun m b => Chunk.compare m.sum b.sum, fun m b => Chunk.compare m.min b.min,
    fun m b => Chunk.compare m.max b.max, fun m b => Chunk.compare m.counter b.counter]

theorem AggrChunk.compare_eq_lexAll (m b : AggrChunk) : m.compare b = Cmp.lexAll AggrChunk.compareSteps m b := by
  rw [AggrChunk.compareSteps, Cmp.lexAll, Cmp.lexAll]
  simp only [Cmp.lex]
  rw [← firstNonZero_map_eq_lexAll]
  simp only [List.map_cons, List.map_nil, Cmp.ltCmp, AggrChunk.compare, gt_iff_lt]
  rcases lt_trichotomy m.minTime b.minTime with h1 | h1 | h1
  · simp [h1, lt_asymm h1]
  · rcases lt_trichotomy m.maxTime b.maxTime with h2 | h2 | h2
    · simp [h1, h2, lt_asymm h2]
    · simp [h1, h2]
    · simp [h1, h2, lt_asymm h2]
  · simp [h1, lt_asymm h1]

theorem lawful_bytesCompare : Cmp.Lawful bytesCompare := by
  have : bytesCompare = Cmp.listCmp (fun x y : UInt8 => Cmp.ltCmp x.toNat y.toNat) := by
    funext a b
    exact bytesCompare_eq_listCmp a b
  rw [this]
  exact (Cmp.lawful_ltCmp.comap UInt8.toNat).list

theorem lawful_chunkCompare : Cmp.Lawful Chunk.compare := by
  have : Chunk.compare = Cmp.optionCmp (Cmp.lex (fun x y : Chunk => Cmp.ltCmp y.type x.type)
      fun x y => bytesCompare x.data y.data) := by
    funext m b
    exact Chunk.compare_eq_optionCmp m b
  rw [this]
  exact ((Cmp.lawful_ltCmp.comap Chunk.type).flip.lex (lawful_bytesCompare.comap Chunk.data)).option

theorem AggrChunk.lawful_compare : Cmp.Lawful AggrChunk.compare := by
  have : AggrChunk.compare = Cmp.lexAll AggrChunk.compareSteps := by
    funext m b
    exact AggrChunk.compare_eq_lexAll m b
  rw [this]
  apply Cmp.Lawful.lexAll
  intro c hc
  simp only [AggrChunk.compareSteps, List.mem_cons, List.not_mem_nil, or_false] at hc
  rcases hc with rfl | rfl | rfl | rfl | rfl | rfl | rfl | rfl
  · exact (Cmp.lawful_ltCmp.comap AggrChunk.minTime).flip
  · exact (Cmp.lawful_ltCmp.comap AggrChunk.maxTime).flip
  all_goals exact lawful_chunkCompare.comap _

/-- `labels.Compare` on one label: name, then value. -/
def zlabelCompare : ZLabel → ZLabel → Int :=
  Cmp.lex (fun a b => Cmp.ltCmp a.name b.name) fun a b => Cmp.ltCmp a.value b.value

theorem labelsCompare_eq_listCmp : ∀ a b : List ZLabel, labelsCompare a b = Cmp.listCmp zlabelCompare a b
  | [], [] => rfl
  | [], _ :: _ => rfl
  | _ :: _, [] => rfl
  | x :: xs, y :: ys => by
    simp only [labelsCompare, Cmp.listCmp, zlabelCompare, Cmp.lex, Cmp.ltCmp, labelsCompare_eq_listCmp xs ys]
    rcases lt_trichotomy x.name y.name with hn | hn | hn
    · simp [hn, ne_of_lt hn]
    · rcases lt_trichotomy x.value y.value with hv | hv | hv
      · simp [hn, hv, ne_of_lt hv]
      · simp [hn, hv]
      · simp [hn, hv, ne_of_gt hv, lt_asymm hv]
    · simp [hn, ne_of_gt hn, lt_asymm hn]

theorem zlabelCompare_eq_zero_iff (a b : ZLabel) : zlabelCompare a b = 0 ↔ a = b := by
  rw [zlabelCompare, Cmp.lex_eq_zero_iff, Cmp.ltCmp_eq_zero_iff, Cmp.ltCmp_eq_zero_iff]
  cases a
  cases b
  simp

theorem lawful_labelsCompare : Cmp.Lawful labelsCompare := by
  have : labelsCompare = Cmp.listCmp zlabelCompare := by
    funext a b
    exact labelsCompare_eq_listCmp a b
  rw [this]
  exact ((Cmp.lawful_ltCmp.comap ZLabel.name).lex (Cmp.lawful_ltCmp.comap ZLabel.value)).list

/-- `labels.Compare` is zero exactly on equal label sets. -/
theorem labelsCompare_eq_zero_iff (a b : List ZLabel) : labelsCompare a b = 0 ↔ a = b := by
  rw [labelsCompare_eq_listCmp]
  exact Cmp.listCmp_eq_zero_iff zlabelCompare_eq_zero_iff

end Compare

end Thanos.Store
