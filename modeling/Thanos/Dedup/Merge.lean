import Thanos.Dedup.Iter

/-! # What the merge of two replicas emits

Over two time-sorted replicas `a₀` and `b₀` (non-counter, so nothing is
adjusted), every call of `Next` that returns a sample emits the current sample
of one replica, later than the one before; the call that returns `ValNone` has
sought both replicas past their last sample. `Valid` is what holds between two
calls; `next_valFloat` and `next_valNone` say once what one call does, and
`expandGo_run` carries that over the whole loop. -/

namespace Thanos.Dedup

open ReplicaIterator
open GoBinary (IsInt64)

namespace DedupSeriesIterator

/-- The samples the iterator has still to emit: those its replicas hold, but the
one it stands on. -/
def pending (it : DedupSeriesIterator) : Nat :=
  if it.lastT = minInt64 then it.a.samples.length + it.b.samples.length
  else it.a.samples.length + it.b.samples.length - 1

/-- The iterator over replicas `a₀` and `b₀`, before its first `Next` or after
one that returned a sample. Once it has emitted (`lastT ≠ minInt64`) it stands
on the sample emitted last; a replica that has run out is behind the emitted
time plus its penalty. The replicas' timestamps lie within `2^60` and the
penalties within `2^62`, so no int64 sum of `Next` wraps. -/
structure Valid (a₀ b₀ : List (Int × ℚ)) (it : DedupSeriesIterator) : Prop where
  rangeA : ∀ p ∈ a₀, -2 ^ 60 ≤ p.1 ∧ p.1 ≤ 2 ^ 60
  rangeB : ∀ p ∈ b₀, -2 ^ 60 ≤ p.1 ∧ p.1 ≤ 2 ^ 60
  penA_le : it.penA ≤ 2 ^ 62
  penB_le : it.penB ≤ 2 ^ 62
  suffixA : it.a.samples <:+ a₀
  suffixB : it.b.samples <:+ b₀
  errA : it.a.errAdjust = 0
  errB : it.b.errAdjust = 0
  aval : it.aval = it.a.valueType
  bval : it.bval = it.b.valueType
  penA : 0 ≤ it.penA
  penB : 0 ≤ it.penB
  lastT : minInt64 ≤ it.lastT
  current : it.lastT ≠ minInt64 →
    it.useA = it.lastIterA ∧ it.lastIter.samples.head?.map Prod.fst = some it.lastT
  doneA : it.a.samples = [] → ∀ p ∈ a₀, p.1 ≤ it.lastT + it.penA
  doneB : it.b.samples = [] → ∀ p ∈ b₀, p.1 ≤ it.lastT + it.penB

theorem valid_new {a₀ b₀ : List (Int × ℚ)} (hra : ∀ p ∈ a₀, -2 ^ 60 ≤ p.1 ∧ p.1 ≤ 2 ^ 60)
    (hrb : ∀ p ∈ b₀, -2 ^ 60 ≤ p.1 ∧ p.1 ≤ 2 ^ 60) : Valid a₀ b₀ (newDedupSeriesIterator a₀ b₀) where
  rangeA := hra
  rangeB := hrb
  penA_le := by simp [newDedupSeriesIterator]
  penB_le := by simp [newDedupSeriesIterator]
  suffixA := List.suffix_refl _
  suffixB := List.suffix_refl _
  errA := rfl
  errB := rfl
  aval := rfl
  bval := rfl
  penA := le_refl _
  penB := le_refl _
  lastT := le_refl _
  current h := absurd rfl h
  doneA h := by simp_all [newDedupSeriesIterator]
  doneB h := by simp_all [newDedupSeriesIterator]

section Step

variable {a₀ b₀ : List (Int × ℚ)} {it it' : DedupSeriesIterator}

/-- Once it has emitted, the iterator stands at the time of a replica's sample. -/
theorem Valid.lastT_range (hv : Valid a₀ b₀ it) (hne : it.lastT ≠ minInt64) :
    -2 ^ 60 ≤ it.lastT ∧ it.lastT ≤ 2 ^ 60 := by
  obtain ⟨-, hcur⟩ := hv.current hne
  unfold lastIter at hcur
  split at hcur <;> obtain ⟨p, ps, hps, hp⟩ := exists_cons_of_head?_map_fst hcur <;> rw [← hp]
  · exact hv.rangeA p (hv.suffixA.subset (by simp [hps]))
  · exact hv.rangeB p (hv.suffixB.subset (by simp [hps]))

/-- A seek target `lastT + 1 + pen` of a valid iterator is an int64. -/
theorem Valid.isInt64_target (hv : Valid a₀ b₀ it) {pen : Int} (h0 : 0 ≤ pen)
    (h1 : pen ≤ 2 ^ 62) : IsInt64 (it.lastT + 1 + pen) := by
  have hup : it.lastT ≤ 2 ^ 60 := by
    by_cases hne : it.lastT = minInt64
    · rw [hne]
      unfold minInt64
      omega
    · exact (hv.lastT_range hne).2
  have hlo := hv.lastT
  unfold IsInt64
  unfold minInt64 at hlo
  omega

/-- `seekBoth` of a valid iterator seeks both replicas to `lastT + 1` plus their penalty. -/
theorem Valid.seekBoth_eq (hv : Valid a₀ b₀ it) :
    it.seekBoth =
      { it with
        a := (it.a.seek (it.lastT + 1 + it.penA)).1
        aval := (it.a.seek (it.lastT + 1 + it.penA)).1.valueType
        b := (it.b.seek (it.lastT + 1 + it.penB)).1
        bval := (it.b.seek (it.lastT + 1 + it.penB)).1.valueType } :=
  DedupSeriesIterator.seekBoth_eq hv.aval hv.bval (hv.isInt64_target hv.penA hv.penA_le)
    (hv.isInt64_target hv.penB hv.penB_le)

/-- A sample a replica stands on after a seek is one of the replica's. -/
theorem mem_of_seek_samples {r : ReplicaIterator} {xs : List (Int × ℚ)} (hsuf : r.samples <:+ xs)
    {t : Int} {p : Int × ℚ} {ps : List (Int × ℚ)} (h : (r.seek t).1.samples = p :: ps) : p ∈ xs :=
  hsuf.subset ((List.dropWhile_suffix _).subset (by rw [← seek_samples, h]; exact List.mem_cons_self))

/-- A replica sought to `t` stands at `t` or later. -/
theorem le_of_seek_samples {r : ReplicaIterator} {t : Int} {p : Int × ℚ} {ps : List (Int × ℚ)}
    (h : (r.seek t).1.samples = p :: ps) : t ≤ p.1 :=
  le_of_head?_dropWhile (by rw [← seek_samples, h]; rfl)

/-- What a call of `Next` that returns a sample does: it seeks both replicas,
stands on a sample of one of them later than `lastT`, and keeps the penalty of a
replica that has run out. -/
theorem next_valFloat (hv : Valid a₀ b₀ it) (h : it.next false = (it', .valFloat)) :
    it'.a = (it.a.seek (it.lastT + 1 + it.penA)).1 ∧
    it'.b = (it.b.seek (it.lastT + 1 + it.penB)).1 ∧
    it'.aval = it'.a.valueType ∧ it'.bval = it'.b.valueType ∧
    it'.useA = it'.lastIterA ∧ it'.lastIter.samples.head?.map Prod.fst = some it'.lastT ∧
    it.lastT < it'.lastT ∧ 0 ≤ it'.penA ∧ 0 ≤ it'.penB ∧
    (it'.a.samples = [] → it'.penA = it.penA) ∧ (it'.b.samples = [] → it'.penB = it.penB) ∧
    it'.penA ≤ 2 ^ 62 ∧ it'.penB ≤ 2 ^ 62 := by
  have hpA := hv.penA
  have hpB := hv.penB
  have hpA' := hv.penA_le
  have hpB' := hv.penB_le
  have hlast := hv.lastT_range
  have hs := hv.seekBoth_eq
  rw [next_false] at h
  rcases pick_cases it.seekBoth (by rw [hs]) (by rw [hs]) with ⟨-, -, hp⟩ |
      ⟨q, qs, ha, hb, hp⟩ | ⟨p, ps, ha, hb, hp⟩ | ⟨p, ps, q, qs, ha, hb, hpq, hp⟩ |
      ⟨p, ps, q, qs, ha, hb, hqp, hp⟩ <;>
    rw [hp] at h <;> simp only [Prod.mk.injEq, reduceCtorEq, and_false, and_true] at h <;>
    subst h <;> simp only [hs] at ha hb ⊢
  case inr.inl =>
    have hq := le_of_seek_samples hb
    simp_all [lastIter]
    omega
  case inr.inr.inl =>
    have hp := le_of_seek_samples ha
    simp_all [lastIter]
    omega
  case inr.inr.inr.inl =>
    have hp := le_of_seek_samples ha
    have hpr := hv.rangeA p (mem_of_seek_samples hv.suffixA ha)
    simp_all [lastIter]
    simp only [initialPenalty, GoBinary.wrapInt64]
    split_ifs <;> omega
  case inr.inr.inr.inr =>
    have hq := le_of_seek_samples hb
    have hqr := hv.rangeB q (mem_of_seek_samples hv.suffixB hb)
    simp_all [lastIter]
    simp only [initialPenalty, GoBinary.wrapInt64]
    split_ifs <;> omega

/-- What the call of `Next` that returns `ValNone` does: it seeks both replicas
past their last sample and changes neither `lastT` nor a penalty. -/
theorem next_valNone (hv : Valid a₀ b₀ it) (h : it.next false = (it', .valNone)) :
    it'.a = (it.a.seek (it.lastT + 1 + it.penA)).1 ∧
    it'.b = (it.b.seek (it.lastT + 1 + it.penB)).1 ∧
    it'.a.samples = [] ∧ it'.b.samples = [] ∧
    it'.lastT = it.lastT ∧ it'.penA = it.penA ∧ it'.penB = it.penB := by
  have hs := hv.seekBoth_eq
  rw [next_false] at h
  rcases pick_cases it.seekBoth (by rw [hs]) (by rw [hs]) with ⟨ha, hb, hp⟩ |
      ⟨q, qs, ha, hb, hp⟩ | ⟨p, ps, ha, hb, hp⟩ | ⟨p, ps, q, qs, ha, hb, hpq, hp⟩ |
      ⟨p, ps, q, qs, ha, hb, hqp, hp⟩ <;>
    rw [hp] at h <;> simp only [Prod.mk.injEq, reduceCtorEq, and_false, and_true] at h
  subst h
  simp only [hs] at ha hb ⊢
  exact ⟨trivial, trivial, ha, hb, trivial, trivial, trivial⟩

variable (hsa : (a₀.map Prod.fst).Pairwise (· < ·)) (hsb : (b₀.map Prod.fst).Pairwise (· < ·))

/-- A replica that a seek to `L + 1 + pen` runs out has no sample after `L + pen`. -/
theorem le_of_seek_nil {xs : List (Int × ℚ)} {r : ReplicaIterator} {L pen : Int}
    (hsort : (xs.map Prod.fst).Pairwise (· < ·)) (hsuf : r.samples <:+ xs)
    (hdone : r.samples = [] → ∀ p ∈ xs, p.1 ≤ L + pen)
    (h : (r.seek (L + 1 + pen)).1.samples = []) : ∀ p ∈ xs, p.1 ≤ L + pen := by
  by_cases hr : r.samples = []
  · exact hdone hr
  · intro p hp
    have := lt_of_dropWhile_eq_nil hsort hsuf hr h p hp
    omega

include hsa hsb in
/-- `Valid` holds again after every call of `Next` that returns a sample. -/
theorem valid_next (hv : Valid a₀ b₀ it) (h : it.next false = (it', .valFloat)) :
    Valid a₀ b₀ it' := by
  obtain ⟨ha, hb, haval, hbval, huse, hcur, hlt, hpA, hpB, hkeepA, hkeepB, hleA, hleB⟩ :=
    next_valFloat hv h
  refine ⟨hv.rangeA, hv.rangeB, hleA, hleB, ?_, ?_, ?_, ?_, haval, hbval, hpA, hpB, ?_,
    fun _ => ⟨huse, hcur⟩, ?_, ?_⟩
  · rw [ha]
    exact (List.dropWhile_suffix _).trans hv.suffixA
  · rw [hb]
    exact (List.dropWhile_suffix _).trans hv.suffixB
  · rw [ha]
    exact hv.errA
  · rw [hb]
    exact hv.errB
  · exact le_of_lt (lt_of_le_of_lt hv.lastT hlt)
  · intro hnil p hp
    have := le_of_seek_nil hsa hv.suffixA hv.doneA (by rw [← ha]; exact hnil) p hp
    rw [hkeepA hnil]
    omega
  · intro hnil p hp
    have := le_of_seek_nil hsb hv.suffixB hv.doneB (by rw [← hb]; exact hnil) p hp
    rw [hkeepB hnil]
    omega

include hsa hsb in
/-- Once `Next` has returned `ValNone`, no sample of either replica is after
`lastT` plus that replica's penalty. -/
theorem done_of_next_valNone (hv : Valid a₀ b₀ it) (h : it.next false = (it', .valNone)) :
    (∀ p ∈ a₀, p.1 ≤ it'.lastT + it'.penA) ∧ (∀ p ∈ b₀, p.1 ≤ it'.lastT + it'.penB) := by
  obtain ⟨ha, hb, hanil, hbnil, hlast, hpA, hpB⟩ := next_valNone hv h
  rw [hlast, hpA, hpB]
  exact ⟨le_of_seek_nil hsa hv.suffixA hv.doneA (by rw [← ha]; exact hanil),
    le_of_seek_nil hsb hv.suffixB hv.doneB (by rw [← hb]; exact hbnil)⟩

/-- Once it has emitted, the iterator's `At` is the sample it stands on, of one
of the replicas, at `lastT`. -/
theorem at'_of_valid (hv : Valid a₀ b₀ it) (hne : it.lastT ≠ minInt64) :
    (it.at' ∈ a₀ ∨ it.at' ∈ b₀) ∧ it.at'.1 = it.lastT := by
  obtain ⟨-, hcur⟩ := hv.current hne
  unfold at' lastIter at *
  cases hA : it.lastIterA <;> simp only [hA, Bool.false_eq_true, if_false, if_true] at hcur ⊢
  case false =>
    obtain ⟨p, ps, hps, hp⟩ := exists_cons_of_head?_map_fst hcur
    rw [at'_eq hps, hv.errB, add_zero]
    exact ⟨Or.inr (hv.suffixB.subset (by simp [hps])), hp⟩
  case true =>
    obtain ⟨p, ps, hps, hp⟩ := exists_cons_of_head?_map_fst hcur
    rw [at'_eq hps, hv.errA, add_zero]
    exact ⟨Or.inl (hv.suffixA.subset (by simp [hps])), hp⟩

/-- Every call of `Next` that returns a sample leaves one sample fewer to emit:
the first one moves off `minInt64`, every later one drops the sample it stood on. -/
theorem pending_next_lt (hv : Valid a₀ b₀ it) (h : it.next false = (it', .valFloat)) :
    it'.pending < it.pending := by
  obtain ⟨ha, hb, -, -, -, hcur, hlt, -⟩ := next_valFloat hv h
  have hne : it'.lastT ≠ minInt64 := by have := hv.lastT; omega
  have hpos : 0 < it'.a.samples.length + it'.b.samples.length := by
    unfold lastIter at hcur
    split at hcur <;> obtain ⟨p, ps, hps, -⟩ := exists_cons_of_head?_map_fst hcur <;>
      simp only [hps, List.length_cons] <;> omega
  have hla : it'.a.samples.length ≤ it.a.samples.length := by
    rw [ha]
    exact (List.dropWhile_suffix _).length_le
  have hlb : it'.b.samples.length ≤ it.b.samples.length := by
    rw [hb]
    exact (List.dropWhile_suffix _).length_le
  unfold pending
  rw [if_neg hne]
  split_ifs with hmin
  · omega
  · -- the replica `Next` stood on loses that sample
    obtain ⟨-, hcur₀⟩ := hv.current hmin
    have hpA := hv.penA
    have hpB := hv.penB
    unfold lastIter at hcur₀
    split at hcur₀ <;> obtain ⟨p, ps, hps, hp⟩ := exists_cons_of_head?_map_fst hcur₀
    · have hdrop : it'.a.samples.length < it.a.samples.length := by
        rw [ha, seek_samples, hps]
        exact length_dropWhile_lt (by omega)
      omega
    · have hdrop : it'.b.samples.length < it.b.samples.length := by
        rw [hb, seek_samples, hps]
        exact length_dropWhile_lt (by omega)
      omega

end Step

section Run

variable {a₀ b₀ : List (Int × ℚ)} (hsa : (a₀.map Prod.fst).Pairwise (· < ·))
  (hsb : (b₀.map Prod.fst).Pairwise (· < ·))

theorem expandGo_succ (c : Bool) (n : Nat) (it : DedupSeriesIterator) :
    expandGo c (n + 1) it =
      if (it.next c).2 = .valNone then ([], (it.next c).1)
      else ((it.next c).1.at' :: (expandGo c n (it.next c).1).1,
        (expandGo c n (it.next c).1).2) := rfl

include hsa hsb in
/-- Every sample the loop reads is a sample of one of the replicas, after the
`lastT` it started from. -/
theorem mem_expandGo {n : Nat} {it : DedupSeriesIterator} (hv : Valid a₀ b₀ it) :
    ∀ p ∈ (expandGo false n it).1, (p ∈ a₀ ∨ p ∈ b₀) ∧ it.lastT < p.1 := by
  induction n generalizing it with
  | zero => simp [expandGo]
  | succ n ih =>
    rcases hnx : it.next false with ⟨it', _ | _⟩
    · simp [expandGo_succ, hnx]
    · have hv' := valid_next hsa hsb hv hnx
      obtain ⟨-, -, -, -, -, -, hlt, -⟩ := next_valFloat hv hnx
      have hat := at'_of_valid hv' (by have := hv.lastT; omega)
      simp only [expandGo_succ, hnx, reduceCtorEq, if_false, List.mem_cons]
      rintro p (rfl | hp)
      · exact ⟨hat.1, by omega⟩
      · obtain ⟨hmem, hp⟩ := ih hv' p hp
        exact ⟨hmem, by omega⟩

include hsa hsb in
/-- The samples the loop reads have strictly increasing timestamps. -/
theorem expandGo_sorted {n : Nat} {it : DedupSeriesIterator} (hv : Valid a₀ b₀ it) :
    ((expandGo false n it).1.map Prod.fst).Pairwise (· < ·) := by
  induction n generalizing it with
  | zero => simp [expandGo]
  | succ n ih =>
    rcases hnx : it.next false with ⟨it', _ | _⟩
    · simp [expandGo_succ, hnx]
    · have hv' := valid_next hsa hsb hv hnx
      obtain ⟨-, -, -, -, -, -, hlt, -⟩ := next_valFloat hv hnx
      have hat := at'_of_valid hv' (by have := hv.lastT; omega)
      simp only [expandGo_succ, hnx, reduceCtorEq, if_false, List.map_cons, List.pairwise_cons,
        List.mem_map]
      refine ⟨?_, ih hv'⟩
      rintro _ ⟨q, hq, rfl⟩
      rw [hat.2]
      exact (mem_expandGo hsa hsb hv' q hq).2

include hsa hsb in
/-- With more rounds than samples to emit, the loop ends by `ValNone`: one
more round changes nothing. -/
theorem expandGo_stable {n : Nat} {it : DedupSeriesIterator} (hv : Valid a₀ b₀ it)
    (hn : it.pending < n) : expandGo false (n + 1) it = expandGo false n it := by
  induction n generalizing it with
  | zero => omega
  | succ n ih =>
    rcases hnx : it.next false with ⟨it', _ | _⟩
    · simp [expandGo_succ _ (n + 1) it, expandGo_succ _ n it, hnx]
    · have hlt := pending_next_lt hv hnx
      rw [expandGo_succ _ (n + 1) it, expandGo_succ _ n it, hnx]
      simp only [reduceCtorEq, if_false]
      rw [ih (valid_next hsa hsb hv hnx) (by omega)]

include hsa hsb in
/-- When the loop has ended, neither replica has a sample after `lastT` plus its
penalty. -/
theorem done_expandGo {n : Nat} {it : DedupSeriesIterator} (hv : Valid a₀ b₀ it)
    (hn : it.pending < n) :
    (∀ p ∈ a₀, p.1 ≤ (expandGo false n it).2.lastT + (expandGo false n it).2.penA) ∧
    (∀ p ∈ b₀, p.1 ≤ (expandGo false n it).2.lastT + (expandGo false n it).2.penB) := by
  induction n generalizing it with
  | zero => omega
  | succ n ih =>
    rcases hnx : it.next false with ⟨it', _ | _⟩
    · simpa [expandGo_succ, hnx] using done_of_next_valNone hsa hsb hv hnx
    · have hlt := pending_next_lt hv hnx
      simp only [expandGo_succ, hnx, reduceCtorEq, if_false]
      exact ih (valid_next hsa hsb hv hnx) (by omega)

theorem pending_lt_fuel (it : DedupSeriesIterator) : it.pending < it.fuel := by
  unfold pending fuel
  split <;> omega

include hsa hsb in
/-- Any number of rounds above the samples left to emit runs the whole loop. -/
theorem expandGo_eq_of_lt {it : DedupSeriesIterator} (hv : Valid a₀ b₀ it) {m n : Nat}
    (hm : it.pending < m) (hn : it.pending < n) : expandGo false m it = expandGo false n it := by
  -- both equal the loop with the least number of rounds that is enough
  have key : ∀ k, expandGo false (it.pending + 1 + k) it = expandGo false (it.pending + 1) it := by
    intro k
    induction k with
    | zero => rfl
    | succ k ih => rw [← Nat.add_assoc, expandGo_stable hsa hsb hv (by omega), ih]
  obtain ⟨k, rfl⟩ := Nat.exists_eq_add_of_le hm
  obtain ⟨l, rfl⟩ := Nat.exists_eq_add_of_le hn
  rw [key, key]

/-- The first call of `Next` seeks both replicas to `minInt64 + 1`, which moves
neither when no sample is at `minInt64`, and reads the earlier one. -/
theorem head?_expandSeries_new (ha : ∀ p ∈ a₀, minInt64 < p.1) (hb : ∀ p ∈ b₀, minInt64 < p.1) :
    (expandSeries false (newDedupSeriesIterator a₀ b₀)).head?.map Prod.fst =
      Option.merge min (a₀.head?.map Prod.fst) (b₀.head?.map Prod.fst) := by
  have hkeep : ∀ xs : List (Int × ℚ), (∀ p ∈ xs, minInt64 < p.1) →
      (xs.dropWhile fun p => p.1 < minInt64 + 1) = xs := by
    rintro (_ | ⟨p, ps⟩) h
    · rfl
    · exact dropWhile_of_le_head (by have := h p (by simp); omega)
  have hs : (newDedupSeriesIterator a₀ b₀).seekBoth = newDedupSeriesIterator a₀ b₀ := by
    rw [seekBoth_eq rfl rfl (by simp only [newDedupSeriesIterator]; decide)
      (by simp only [newDedupSeriesIterator]; decide)]
    simp only [newDedupSeriesIterator, ReplicaIterator.seek, add_zero, hkeep a₀ ha, hkeep b₀ hb]
  unfold expandSeries fuel
  rw [expandGo_succ, next_false, hs]
  rcases pick_cases (newDedupSeriesIterator a₀ b₀) rfl rfl with ⟨hA, hB, hp⟩ |
      ⟨q, qs, hA, hB, hp⟩ | ⟨p, ps, hA, hB, hp⟩ | ⟨p, ps, q, qs, hA, hB, hpq, hp⟩ |
      ⟨p, ps, q, qs, hA, hB, hqp, hp⟩ <;>
    rw [hp] <;> simp only [newDedupSeriesIterator] at hA hB ⊢ <;> subst hA hB <;>
    simp [at', lastIter, ReplicaIterator.at']
  · exact hpq
  · exact hqp.le

variable (hra : ∀ p ∈ a₀, -2 ^ 60 ≤ p.1 ∧ p.1 ≤ 2 ^ 60) (hrb : ∀ p ∈ b₀, -2 ^ 60 ≤ p.1 ∧ p.1 ≤ 2 ^ 60)

include hsa hsb hra hrb in
/-- The merge of two time-sorted replicas emits samples of the replicas. -/
theorem mem_expandSeries_new {p : Int × ℚ}
    (hp : p ∈ expandSeries false (newDedupSeriesIterator a₀ b₀)) : p ∈ a₀ ∨ p ∈ b₀ :=
  (mem_expandGo hsa hsb (valid_new hra hrb) p hp).1

include hsa hsb hra hrb in
/-- The merge of two time-sorted replicas emits strictly increasing timestamps. -/
theorem expandSeries_new_sorted :
    ((expandSeries false (newDedupSeriesIterator a₀ b₀)).map Prod.fst).Pairwise (· < ·) :=
  expandGo_sorted hsa hsb (valid_new hra hrb)

include hsa hsb hra hrb in
/-- Once the merge of two time-sorted replicas has ended, neither has a sample
after `lastT` plus its penalty. -/
theorem done_exhausted_new :
    (∀ p ∈ a₀, p.1 ≤ (exhausted false (newDedupSeriesIterator a₀ b₀)).lastT +
      (exhausted false (newDedupSeriesIterator a₀ b₀)).penA) ∧
    (∀ p ∈ b₀, p.1 ≤ (exhausted false (newDedupSeriesIterator a₀ b₀)).lastT +
      (exhausted false (newDedupSeriesIterator a₀ b₀)).penB) :=
  done_expandGo hsa hsb (valid_new hra hrb) (pending_lt_fuel _)

end Run

end DedupSeriesIterator

end Thanos.Dedup
