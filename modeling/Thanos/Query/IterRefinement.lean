import Mathlib
import Thanos.Query.Iter
import Thanos.Lib.Ascending
import Thanos.Lib.SeekIter

/-! # The querier's series iterator refines a list iterator

A chunk iterator that decodes reads a list of samples, `ChunkIterator.rest`; the series
iterator reads the samples of its chunks one after another, and `future` are those it will
still yield: the ones later than everything it yielded already (`Ascending.keepAfter`).
`next_steps` and `seek_steps` say what `Next` and `Seek` do over that list, with fuel enough
for the calls they nest. Over them, the bounded iterator is simulated call by call
(`bounded_simulates`) by `SeekIter.ListIter` over the yielded samples from `mint` on. -/

namespace Thanos.Query

open Thanos.Dedup (ValueType minInt64)
open Thanos.Store (Aggr AggrChunk Chunk)
open Ascending SeekIter

/-- Samples whose timestamps ascend strictly. -/
def Ascends (xs : List (Int × ℚ)) : Prop := xs.Pairwise fun p q => p.1 < q.1

instance (xs : List (Int × ℚ)) : Decidable (Ascends xs) :=
  inferInstanceAs (Decidable (xs.Pairwise _))

/-! ## One chunk -/

namespace ChunkIterator

/-- The samples a chunk iterator has still to read. -/
def rest : ChunkIterator → List (Int × ℚ)
  | .base (.xor it) => it.rest
  | .base (.errSeries _) => []
  | .average ⟨.xor c, .xor s, _, _, _⟩ => List.zipWith (fun p q => (p.1, q.2 / p.2)) c.rest s.rest
  | .average _ => []

/-- A chunk iterator that reads: a decoded chunk, or an average over a count and a sum
iterator with the same timestamps. -/
def Good : ChunkIterator → Prop
  | .base (.xor _) => True
  | .base (.errSeries _) => False
  | .average ⟨.xor c, .xor s, _, _, err⟩ => err = none ∧ c.rest.map (·.1) = s.rest.map (·.1)
  | .average _ => False

theorem atT_eq_at' : ∀ c : ChunkIterator, c.atT = c.at'.1
  | .base (.xor ⟨none, _⟩) | .base (.xor ⟨some _, _⟩) | .base (.errSeries _) | .average _ => rfl

theorem err_of_good : ∀ {c : ChunkIterator}, c.Good → c.err = none
  | .base (.xor _), _ => rfl
  | .average ⟨.xor _, .xor _, _, _, _⟩, h => by simp [err, AverageChunkIterator.firstErr, BaseIterator.err, h.1]

/-- An exhausted chunk stays where it is. -/
theorem next_of_rest_nil : ∀ {c : ChunkIterator}, c.Good → c.rest = [] → c.next = (c, .valNone)
  | .base (.xor ⟨_, []⟩), _, _ => rfl
  | .average ⟨.xor ⟨_, cs⟩, .xor ⟨_, ss⟩, _, _, _⟩, h, hr => by
    have hlen : cs.length = ss.length := by simpa using congrArg List.length h.2
    have hnil : cs = [] ∨ ss = [] := by simpa [rest, List.zipWith_eq_nil_iff] using hr
    obtain ⟨rfl, rfl⟩ : cs = [] ∧ ss = [] := by
      rcases hnil with rfl | rfl
      · exact ⟨rfl, List.eq_nil_of_length_eq_zero hlen.symm⟩
      · exact ⟨List.eq_nil_of_length_eq_zero hlen, rfl⟩
    rfl

/-- A chunk with samples left moves to the first. -/
theorem next_of_rest_cons : ∀ {c : ChunkIterator} {p : Int × ℚ} {ps : List (Int × ℚ)}, c.Good →
    c.rest = p :: ps →
    c.next.2 = .valFloat ∧ c.next.1.Good ∧ c.next.1.rest = ps ∧ c.next.1.at' = p
  | .base (.xor ⟨_, q :: qs⟩), _, _, _, h => by
    obtain ⟨rfl, rfl⟩ := List.cons.inj h
    exact ⟨rfl, trivial, rfl, rfl⟩
  | .average ⟨.xor ⟨_, a :: as⟩, .xor ⟨_, b :: bs⟩, _, _, err⟩, _, _, hg, h => by
    obtain ⟨rfl, rfl⟩ := List.cons.inj h
    obtain ⟨herr, hts⟩ := hg
    have hab : a.1 = b.1 := (List.cons.inj hts).1
    simp [next, AverageChunkIterator.next, BaseIterator.next, XorIterator.next, BaseIterator.atT,
      XorIterator.atT, BaseIterator.at', XorIterator.at', hab, Good, herr, rest, at',
      (List.cons.inj hts).2]
  | .average ⟨.xor ⟨_, []⟩, .xor _, _, _, _⟩, _, _, _, h => by simp [rest] at h
  | .average ⟨.xor ⟨_, _ :: _⟩, .xor ⟨_, []⟩, _, _, _⟩, _, _, _, h => by simp [rest] at h

/-- What the current chunk of the series iterator keeps: it reads, its samples ascend after
the one it stands on and are positive, and once exhausted it stands on a positive one. -/
structure Current (c : ChunkIterator) : Prop where
  good : c.Good
  asc : Ascends c.rest
  after : ∀ p ∈ c.rest, c.atT < p.1
  pos : ∀ p ∈ c.rest, 0 < p.1
  read : c.rest = [] → 0 < c.atT

/-- A chunk not read yet: it reads, stands before every positive timestamp, and has positive
samples that ascend. -/
structure Fresh (c : ChunkIterator) : Prop where
  good : c.Good
  atT_nonpos : c.atT ≤ 0
  ne_nil : c.rest ≠ []
  asc : Ascends c.rest
  pos : ∀ p ∈ c.rest, 0 < p.1

theorem Fresh.current {c : ChunkIterator} (h : c.Fresh) : c.Current where
  good := h.good
  asc := h.asc
  after p hp := lt_of_le_of_lt h.atT_nonpos (h.pos p hp)
  pos := h.pos
  read hr := absurd hr h.ne_nil

/-- `Next` on the current chunk with samples left keeps it current. -/
theorem Current.next {c : ChunkIterator} {p : Int × ℚ} {ps : List (Int × ℚ)} (h : c.Current)
    (hr : c.rest = p :: ps) :
    c.next.2 = .valFloat ∧ c.next.1.Current ∧ c.next.1.rest = ps ∧ c.next.1.at' = p := by
  obtain ⟨hvt, hgood, hrest, hat⟩ := next_of_rest_cons h.good hr
  have hasc := h.asc
  rw [Ascends, hr, List.pairwise_cons] at hasc
  have hpos := h.pos
  rw [hr] at hpos
  refine ⟨hvt, ⟨hgood, ?_, ?_, ?_, ?_⟩, hrest, hat⟩
  · rw [hrest]; exact hasc.2
  · rw [hrest, atT_eq_at', hat]; exact hasc.1
  · rw [hrest]; exact fun q hq => hpos q (List.mem_cons_of_mem p hq)
  · intro _
    rw [atT_eq_at', hat]
    exact hpos p List.mem_cons_self

end ChunkIterator

/-! ## The series: `Next` and `Seek` over the samples still to come -/

namespace ChunkSeriesIterator

/-- The samples left in the chunks, in the order the iterator reads them. -/
def samples (it : ChunkSeriesIterator) : List (Int × ℚ) :=
  it.cur.rest ++ (it.todo.map ChunkIterator.rest).flatten

/-- The samples the iterator will yield: those later than the one it stands on and than each
one yielded before them. -/
def future (it : ChunkSeriesIterator) : List (Int × ℚ) :=
  keepAfter Prod.fst (some it.cur.atT) it.samples

/-- A bound on the calls `Next` and `Seek` nest: the samples left, and a call per chunk left. -/
def size (it : ChunkSeriesIterator) : Nat :=
  it.cur.rest.length + (it.todo.map fun c => c.rest.length + 1).sum

/-- The current chunk reads on, and the chunks after it are not read yet. -/
def Inv (it : ChunkSeriesIterator) : Prop := it.cur.Current ∧ ∀ c ∈ it.todo, c.Fresh

/-- A call that was to yield the first of `l`: it says none when `l` is empty, and otherwise
stands on that sample, with the rest of `l` still to come, below the bound `n`. -/
def Steps (n : Nat) (it' : ChunkSeriesIterator) (vt : ValueType) : List (Int × ℚ) → Prop
  | [] => vt = .valNone
  | p :: ps => vt = .valFloat ∧ it'.Inv ∧ it'.cur.at' = p ∧ it'.lastVal = .valFloat ∧
      it'.future = ps ∧ it'.size < n

theorem Steps.mono {n m : Nat} {it' : ChunkSeriesIterator} {vt : ValueType} :
    ∀ {l : List (Int × ℚ)}, Steps n it' vt l → n ≤ m → Steps m it' vt l
  | [], h, _ => h
  | _ :: _, ⟨hvt, hinv, hat, hlast, hfut, hsize⟩, hnm => ⟨hvt, hinv, hat, hlast, hfut, by omega⟩

/-- `Seek` stays where the iterator already stands at `t` or later. -/
theorem seek_of_le {it : ChunkSeriesIterator} {t : Int} (h : t ≤ it.cur.atT) (fuel : Nat) :
    seek (fuel + 1) it t = (it, it.lastVal) := by
  simp [seek, h]

/-- What `Next` does with `fuel` calls to nest. -/
def NextSpec (fuel : Nat) : Prop :=
  ∀ it : ChunkSeriesIterator, it.Inv → 2 * it.size + 1 ≤ fuel →
    Steps it.size (next fuel it).1 (next fuel it).2 it.future

/-- What `Seek t` does with `fuel` calls to nest, from a sample before `t`. -/
def SeekSpec (fuel : Nat) : Prop :=
  ∀ (it : ChunkSeriesIterator) (t : Int), it.Inv → 2 * it.size + 2 ≤ fuel → it.cur.atT < t →
    Steps it.size (seek fuel it t).1 (seek fuel it t).2 (it.future.dropWhile fun p => p.1 < t)

/-- Within a chunk, `Next` yields the chunk's next sample. -/
theorem next_of_cur_cons {it : ChunkSeriesIterator} {q : Int × ℚ} {qs : List (Int × ℚ)}
    (hinv : it.Inv) (hr : it.cur.rest = q :: qs) (fuel : Nat) :
    Steps it.size (next (fuel + 1) it).1 (next (fuel + 1) it).2 it.future := by
  obtain ⟨hvt, hcur, hrest, hat⟩ := hinv.1.next hr
  have hcn : it.cur.next = (it.cur.next.1, .valFloat) := Prod.ext rfl hvt
  have hnext : next (fuel + 1) it = (⟨it.cur.next.1, it.todo, .valFloat⟩, .valFloat) := by
    rw [next, hcn]
    rfl
  have hfut : it.future = q :: keepAfter Prod.fst (some q.1) (qs ++ (it.todo.map ChunkIterator.rest).flatten) := by
    rw [future, samples, hr, List.cons_append,
      keepAfter_cons_of_lt (hinv.1.after q (hr ▸ List.mem_cons_self))]
  rw [hnext, hfut]
  refine ⟨rfl, ⟨hcur, hinv.2⟩, hat, rfl, ?_, ?_⟩
  · simp only [future, samples, hrest, ChunkIterator.atT_eq_at', hat]
  · simp only [size, hrest, hr, List.length_cons]
    omega

/-- At the end of a chunk, `Next` seeks past the last timestamp in the next chunk. -/
theorem next_of_cur_nil (fuel : Nat) (ihs : SeekSpec fuel) {it : ChunkSeriesIterator}
    (hinv : it.Inv) (hr : it.cur.rest = []) (hf : 2 * it.size + 1 ≤ fuel + 1) :
    Steps it.size (next (fuel + 1) it).1 (next (fuel + 1) it).2 it.future := by
  have hcn := ChunkIterator.next_of_rest_nil hinv.1.good hr
  have herr := ChunkIterator.err_of_good hinv.1.good
  cases htd : it.todo with
  | nil =>
    have hfut : it.future = [] := by simp [future, samples, hr, htd]
    rw [hfut]
    simp [Steps, next, hcn, herr, htd]
  | cons c' cs =>
    have hlast : 0 < it.cur.atT := hinv.1.read hr
    have hc' : c'.Fresh := hinv.2 c' (htd ▸ List.mem_cons_self)
    have hnext : next (fuel + 1) it = seek fuel ⟨c', cs, it.lastVal⟩ (it.cur.atT + 1) := by
      simp [next, hcn, herr, htd]
    have hinv' : (⟨c', cs, it.lastVal⟩ : ChunkSeriesIterator).Inv :=
      ⟨hc'.current, fun c hc => hinv.2 c (htd ▸ List.mem_cons_of_mem _ hc)⟩
    have hsize : (⟨c', cs, it.lastVal⟩ : ChunkSeriesIterator).size + 1 = it.size := by
      simp only [size, hr, htd, List.map_cons, List.sum_cons, List.length_nil]
      omega
    -- the next chunk drops what it holds up to the last timestamp read
    have hfut : (ChunkSeriesIterator.future ⟨c', cs, it.lastVal⟩).dropWhile
        (fun p => p.1 < it.cur.atT + 1) = it.future := by
      have hlt : (fun p : Int × ℚ => decide (p.1 < it.cur.atT + 1)) =
          fun p => decide (p.1 ≤ it.cur.atT) := by
        funext p
        simp
      rw [hlt, future, dropWhile_keepAfter (hc'.atT_nonpos.trans hlast.le)]
      simp [future, samples, hr, htd]
    rw [hnext, ← hfut]
    have hbefore : c'.atT < it.cur.atT + 1 := by have := hc'.atT_nonpos; omega
    exact (ihs _ _ hinv' (by omega) hbefore).mono (by omega)

theorem nextSpec_succ (fuel : Nat) (ihs : SeekSpec fuel) : NextSpec (fuel + 1) := by
  intro it hinv hf
  cases hr : it.cur.rest with
  | cons q qs => exact next_of_cur_cons hinv hr fuel
  | nil => exact next_of_cur_nil fuel ihs hinv hr hf

theorem seekSpec_succ (fuel : Nat) (ihn : NextSpec fuel) (ihs : SeekSpec fuel) :
    SeekSpec (fuel + 1) := by
  intro it t hinv hf ht
  rcases hn : next fuel it with ⟨it1, vt⟩
  have hstep := ihn it hinv (by omega)
  rw [hn] at hstep
  dsimp only at hstep
  have hseek : seek (fuel + 1) it t =
      if vt = .valNone then ({ it1 with lastVal := vt }, .valNone)
      else seek fuel { it1 with lastVal := vt } t := by
    simp [seek, not_le.mpr ht, hn]
  rw [hseek]
  rcases hfut : it.future with _ | ⟨p, ps⟩
  · rw [hfut] at hstep
    have hnone : vt = .valNone := hstep
    rw [if_pos hnone]
    rfl
  · rw [hfut] at hstep
    obtain ⟨hvt, hinv1, hat, hlast, hfut1, hsize⟩ := hstep
    rw [if_neg (by rw [hvt]; decide)]
    have hatT : it1.cur.atT = p.1 := by rw [ChunkIterator.atT_eq_at', hat]
    by_cases hpt : t ≤ p.1
    · -- the first sample to come is at `t` or later: the inner `Seek` stays on it
      obtain ⟨fuel', rfl⟩ : ∃ f, fuel = f + 1 := ⟨fuel - 1, by omega⟩
      rw [List.dropWhile_cons_of_neg (by simpa using hpt), seek_of_le (by exact hatT ▸ hpt)]
      exact ⟨hvt, hinv1, hat, hvt, hfut1, hsize⟩
    · rw [List.dropWhile_cons_of_pos (by simpa using not_le.mp hpt), ← hfut1]
      have hinv1' : ({ it1 with lastVal := vt } : ChunkSeriesIterator).Inv := hinv1
      exact (ihs _ t hinv1' (by show 2 * it1.size + 2 ≤ fuel; omega)
        (by exact hatT ▸ not_le.mp hpt)).mono hsize.le

/-- `Next` and `Seek`, with fuel for the calls they nest. -/
theorem specs : ∀ fuel : Nat, NextSpec fuel ∧ SeekSpec fuel
  | 0 => ⟨fun _ _ h => by omega, fun _ _ _ h => by omega⟩
  | fuel + 1 =>
    ⟨nextSpec_succ fuel (specs fuel).2, seekSpec_succ fuel (specs fuel).1 (specs fuel).2⟩

theorem next_steps {fuel : Nat} {it : ChunkSeriesIterator} (hinv : it.Inv)
    (hf : 2 * it.size + 1 ≤ fuel) : Steps it.size (next fuel it).1 (next fuel it).2 it.future :=
  (specs fuel).1 it hinv hf

theorem seek_steps {fuel : Nat} {it : ChunkSeriesIterator} {t : Int} (hinv : it.Inv)
    (hf : 2 * it.size + 2 ≤ fuel) (ht : it.cur.atT < t) :
    Steps it.size (seek fuel it t).1 (seek fuel it t).2 (it.future.dropWhile fun p => p.1 < t) :=
  (specs fuel).2 it t hinv hf ht

theorem ascends_future (it : ChunkSeriesIterator) : Ascends it.future :=
  pairwise_keepAfter _ _

end ChunkSeriesIterator

/-! ## The bounded iterator against the list iterator -/

namespace BoundedSeriesIterator

/-- A call to the bounded iterator, and whether it stands on a sample after it. -/
def step (fuel : Nat) (b : BoundedSeriesIterator) : Op Int → BoundedSeriesIterator × Bool
  | .next => ((b.next fuel).1, (b.next fuel).2 != .valNone)
  | .seek t => ((b.seek fuel t).1, (b.seek fuel t).2 != .valNone)

/-- The sample `At` reads. -/
def at? (b : BoundedSeriesIterator) : Option (Int × ℚ) := some b.it.at'

/-- `Seek` to a target up to `maxt` seeks the series from `mint` on. -/
theorem seek_chunks (fuel : Nat) (it : ChunkSeriesIterator) {mint maxt t : Int} (ht : t ≤ maxt) :
    seek fuel ⟨.chunks it, mint, maxt⟩ t =
      (⟨.chunks (it.seek fuel (max mint t)).1, mint, maxt⟩, (it.seek fuel (max mint t)).2) := by
  have hmax : (if t < mint then mint else t) = max mint t := by
    by_cases h : t < mint
    · rw [if_pos h, max_eq_left h.le]
    · rw [if_neg h, max_eq_right (not_lt.mp h)]
  simp only [seek, gt_iff_lt, not_lt.mpr ht, if_false, hmax]
  rfl

end BoundedSeriesIterator

open ChunkSeriesIterator

/-- The series iterator stands where the list iterator over its samples from `mint` on stands:
before `mint` while the list iterator stands nowhere, or on the same sample. -/
structure Agrees (n : Nat) (mint : Int) (it : ChunkSeriesIterator) (a : ListIter (Int × ℚ)) :
    Prop where
  inv : it.Inv
  size_le : it.size ≤ n
  rest : a.rest = it.future.filter fun p => mint ≤ p.1
  cur : a.cur = none ∧ it.cur.atT < mint ∨
    ∃ p, a.cur = some p ∧ it.cur.at' = p ∧ mint ≤ p.1 ∧ it.lastVal = .valFloat

/-- The bounded iterator over `[mint, maxt]`, within `n` nested calls, and the list iterator. -/
def Simulates (n : Nat) (mint maxt : Int) (b : BoundedSeriesIterator) (a : ListIter (Int × ℚ)) :
    Prop :=
  b.mint = mint ∧ b.maxt = maxt ∧
    match b.it with
    | .errSeries _ => a = ⟨none, []⟩
    | .chunks it => Agrees n mint it a

section Simulation

variable {n fuel : Nat} {mint maxt : Int}

/-- Landing on the first of an ascending list of samples from `mint` on. -/
theorem agrees_of_steps {m : Nat} {it : ChunkSeriesIterator} {vt : ValueType} {q : Int × ℚ}
    {qs : List (Int × ℚ)} (h : Steps m it vt (q :: qs)) (hm : m ≤ n + 1) (hasc : Ascends (q :: qs))
    (hq : mint ≤ q.1) : Agrees n mint it ⟨some q, qs⟩ := by
  obtain ⟨-, hinv, hat, hlast, hfut, hsize⟩ := h
  rw [Ascends, List.pairwise_cons] at hasc
  refine ⟨hinv, by omega, ?_, .inr ⟨q, rfl, hat, hq, hlast⟩⟩
  rw [hfut, List.filter_eq_self.mpr]
  intro p hp
  simpa using hq.trans (hasc.1 p hp).le

/-- The samples to come from `mint` on, read from `mint` on. -/
theorem filter_dropWhile {it : ChunkSeriesIterator} {p : Int × ℚ} {ps : List (Int × ℚ)}
    (hfut : it.future = p :: ps) :
    (ps.dropWhile fun q => q.1 < mint) = ps.filter fun q => mint ≤ q.1 := by
  have hasc := ascends_future it
  rw [hfut, Ascends, List.pairwise_cons] at hasc
  exact (filter_eq_dropWhile hasc.2).symm

/-- A call keeps the two iterators together: the same answer, and after one that stands on a
sample, the same sample and states that still simulate. -/
def StepAgrees (n fuel : Nat) (mint maxt : Int) (b : BoundedSeriesIterator)
    (a : ListIter (Int × ℚ)) (op : Op Int) : Prop :=
  (b.step fuel op).2 = (a.step Prod.fst maxt op).2 ∧
    ((a.step Prod.fst maxt op).2 = true →
      Simulates n mint maxt (b.step fuel op).1 (a.step Prod.fst maxt op).1 ∧
        (b.step fuel op).1.at? = (a.step Prod.fst maxt op).1.cur)

/-- The first of the samples to come from `mint` on. -/
theorem first_of_filter {l : List (Int × ℚ)} {q : Int × ℚ} {qs : List (Int × ℚ)} (hasc : Ascends l)
    (hL : (l.filter fun p => mint ≤ p.1) = q :: qs) : mint ≤ q.1 ∧ Ascends (q :: qs) := by
  have hq : q ∈ l.filter fun p => mint ≤ p.1 := hL ▸ List.mem_cons_self
  exact ⟨by simpa using (List.mem_filter.mp hq).2, hL ▸ hasc.filter _⟩

theorem simulates_next (hfuel : 2 * n + 2 ≤ fuel) {it : ChunkSeriesIterator}
    {a : ListIter (Int × ℚ)} (hs : Agrees n mint it a) :
    StepAgrees n fuel mint maxt ⟨.chunks it, mint, maxt⟩ a .next := by
  have hsz := hs.size_le
  have hstep := @next_steps fuel it hs.inv (by omega)
  rcases hr : next fuel it with ⟨it1, vt⟩
  rw [hr] at hstep
  dsimp only at hstep
  rcases hfut : it.future with _ | ⟨p, ps⟩
  · -- no sample to come
    rw [hfut] at hstep
    have hnone : vt = .valNone := hstep
    have hrest : a.rest = [] := by rw [hs.rest, hfut]; rfl
    simp [StepAgrees, BoundedSeriesIterator.step, BoundedSeriesIterator.next, SeriesIterator.next,
      hr, hnone, ListIter.step, ListIter.next, hrest]
  rw [hfut] at hstep
  obtain ⟨hvt, hinv1, hat, hlast, hfut1, hsize⟩ := hstep
  have hatT1 : it1.cur.atT = p.1 := by rw [ChunkIterator.atT_eq_at', hat]
  have hatT : (SeriesIterator.chunks it1).atT = p.1 := hatT1
  have hasc := ascends_future it
  rw [hfut, Ascends, List.pairwise_cons] at hasc
  by_cases hpm : mint ≤ p.1
  · -- the next sample is from `mint` on: it is read when not past `maxt`
    have hrest : a.rest = p :: ps.filter fun q => mint ≤ q.1 := by
      rw [hs.rest, hfut, List.filter_cons_of_pos (by simpa using hpm)]
    have hagree : Agrees n mint it1 ⟨some p, ps.filter fun q => mint ≤ q.1⟩ :=
      ⟨hinv1, by omega, by rw [hfut1], .inr ⟨p, rfl, hat, hpm, hlast⟩⟩
    by_cases hpM : p.1 ≤ maxt
    · simp [StepAgrees, BoundedSeriesIterator.step, BoundedSeriesIterator.next,
        SeriesIterator.next, hr, hvt, hatT, not_lt.mpr hpm, hpM, ListIter.step, ListIter.next,
        hrest, Simulates, hagree, BoundedSeriesIterator.at?, SeriesIterator.at', hat]
    · simp [StepAgrees, BoundedSeriesIterator.step, BoundedSeriesIterator.next,
        SeriesIterator.next, hr, hvt, hatT, not_lt.mpr hpm, hpM, ListIter.step, ListIter.next,
        hrest]
  -- below `mint`, `Next` seeks `mint`
  have hpm : p.1 < mint := not_le.mp hpm
  have hrest : a.rest = ps.filter fun q => mint ≤ q.1 := by
    rw [hs.rest, hfut, List.filter_cons_of_neg (by simpa using hpm)]
  have hs1 : Agrees n mint it1 ⟨none, ps.filter fun q => mint ≤ q.1⟩ :=
    ⟨hinv1, by omega, by rw [hfut1], .inl ⟨rfl, by rw [hatT1]; exact hpm⟩⟩
  by_cases hmM : mint ≤ maxt
  · have hseek := @BoundedSeriesIterator.seek_chunks fuel it1 mint maxt mint hmM
    have hlands := @seek_steps fuel it1 mint hinv1 (by omega) (by rw [hatT1]; exact hpm)
    rw [max_self] at hseek
    rw [hfut1, filter_dropWhile hfut] at hlands
    rcases hL : ps.filter (fun q => mint ≤ q.1) with _ | ⟨q, qs⟩
    · rw [hL] at hlands
      have hnone : (seek fuel it1 mint).2 = .valNone := hlands
      simp [StepAgrees, BoundedSeriesIterator.step, BoundedSeriesIterator.next,
        SeriesIterator.next, hr, hvt, hatT, hpm, hseek, hnone, ListIter.step, ListIter.next, hrest,
        hL]
    rw [hL] at hlands
    obtain ⟨hq, hasc'⟩ := first_of_filter hasc.2 hL
    have hagree : Agrees n mint _ ⟨some q, qs⟩ := agrees_of_steps hlands (by omega) hasc' hq
    obtain ⟨hvt', -, hat', -⟩ := hlands
    have hqT : (SeriesIterator.chunks (seek fuel it1 mint).1).atT = q.1 := by
      show (seek fuel it1 mint).1.cur.atT = q.1
      rw [ChunkIterator.atT_eq_at', hat']
    by_cases hqM : q.1 ≤ maxt
    · simp [StepAgrees, BoundedSeriesIterator.step, BoundedSeriesIterator.next,
        SeriesIterator.next, hr, hvt, hatT, hpm, hseek, hvt', hqT, hqM, ListIter.step,
        ListIter.next, hrest, hL, Simulates, hagree, BoundedSeriesIterator.at?,
        SeriesIterator.at', hat']
    · simp [StepAgrees, BoundedSeriesIterator.step, BoundedSeriesIterator.next,
        SeriesIterator.next, hr, hvt, hatT, hpm, hseek, hvt', hqT, hqM, ListIter.step,
        ListIter.next, hrest, hL]
  · -- `mint` itself is past `maxt`: so is every sample from `mint` on
    have hM : maxt < mint := not_le.mp hmM
    rcases hL : ps.filter (fun q => mint ≤ q.1) with _ | ⟨q, qs⟩
    · simp [StepAgrees, BoundedSeriesIterator.step, BoundedSeriesIterator.next,
        SeriesIterator.next, hr, hvt, hatT, hpm, BoundedSeriesIterator.seek, hM, ListIter.step,
        ListIter.next, hrest, hL]
    · have hqM : ¬ q.1 ≤ maxt := by
        have := (first_of_filter hasc.2 hL).1
        omega
      simp [StepAgrees, BoundedSeriesIterator.step, BoundedSeriesIterator.next,
        SeriesIterator.next, hr, hvt, hatT, hpm, BoundedSeriesIterator.seek, hM, ListIter.step,
        ListIter.next, hrest, hL, hqM]

theorem simulates_seek (hfuel : 2 * n + 2 ≤ fuel) {it : ChunkSeriesIterator}
    {a : ListIter (Int × ℚ)} (hs : Agrees n mint it a) (t : Int) :
    StepAgrees n fuel mint maxt ⟨.chunks it, mint, maxt⟩ a (.seek t) := by
  by_cases htM : maxt < t
  · simp [StepAgrees, BoundedSeriesIterator.step, BoundedSeriesIterator.seek, htM, ListIter.step,
      ListIter.seek]
  have ht : t ≤ maxt := not_lt.mp htM
  have hsz := hs.size_le
  have hseek := @BoundedSeriesIterator.seek_chunks fuel it mint maxt t ht
  -- the list iterator stays where it stands at `t` or later, and so does the series
  by_cases hstay : a.cur.any (fun p => t ≤ p.1) = true
  · obtain ⟨hnone, -⟩ | ⟨p, hcur, hat, hpm, hlast⟩ := hs.cur
    · simp [hnone] at hstay
    have htp : t ≤ p.1 := by simpa [hcur] using hstay
    have hle : max mint t ≤ it.cur.atT := by
      rw [ChunkIterator.atT_eq_at', hat]
      exact max_le hpm htp
    obtain ⟨fuel', rfl⟩ : ∃ f, fuel = f + 1 := ⟨fuel - 1, by omega⟩
    rw [seek_of_le hle] at hseek
    have habs : a.step Prod.fst maxt (.seek t) = (a, true) := by
      simp only [ListIter.step, ListIter.seek, if_neg htM, if_pos hstay]
    have hcon : BoundedSeriesIterator.step (fuel' + 1) ⟨.chunks it, mint, maxt⟩ (.seek t) =
        (⟨.chunks it, mint, maxt⟩, true) := by
      simp [BoundedSeriesIterator.step, hseek, hlast]
    rw [StepAgrees, hcon, habs]
    exact ⟨rfl, fun _ => ⟨⟨rfl, rfl, hs⟩, by simp [BoundedSeriesIterator.at?,
      SeriesIterator.at', hat, hcur]⟩⟩
  -- otherwise both seek the first sample to come at `t` or later, and from `mint` on
  have hlt : it.cur.atT < max mint t := by
    obtain ⟨-, hlt⟩ | ⟨p, hcur, hat, -, -⟩ := hs.cur
    · exact lt_of_lt_of_le hlt (le_max_left mint t)
    · have htp : p.1 < t := by simpa [hcur] using hstay
      rw [ChunkIterator.atT_eq_at', hat]
      exact lt_of_lt_of_le htp (le_max_right mint t)
  have hlands := @seek_steps fuel it _ hs.inv (by omega) hlt
  have hdrop : (a.rest.dropWhile fun q => q.1 < t) =
      it.future.dropWhile fun q => q.1 < max mint t := by
    rw [hs.rest, dropWhile_filter_le (ascends_future it)]
  rcases hL : it.future.dropWhile (fun q => q.1 < max mint t) with _ | ⟨q, qs⟩
  · have habs : a.step Prod.fst maxt (.seek t) = (⟨a.cur, []⟩, false) := by
      simp only [ListIter.step, ListIter.seek, if_neg htM, if_neg hstay, hdrop, hL]
    rw [hL] at hlands
    have hnone : (seek fuel it (max mint t)).2 = .valNone := hlands
    simp [StepAgrees, BoundedSeriesIterator.step, hseek, hnone, habs]
  have habs : a.step Prod.fst maxt (.seek t) = (⟨some q, qs⟩, true) := by
    simp only [ListIter.step, ListIter.seek, if_neg htM, if_neg hstay, hdrop, hL]
  rw [hL] at hlands
  have hq : max mint t ≤ q.1 := by
    have := List.head?_dropWhile_not (fun q : Int × ℚ => decide (q.1 < max mint t)) it.future
    rw [hL] at this
    simpa using this
  have hasc : Ascends (q :: qs) := hL ▸ (ascends_future it).sublist (List.dropWhile_sublist _)
  have hagree : Agrees n mint _ ⟨some q, qs⟩ :=
    agrees_of_steps hlands (by omega) hasc (le_trans (le_max_left mint t) hq)
  obtain ⟨hvt, -, hat', -⟩ := hlands
  have hcon : BoundedSeriesIterator.step fuel ⟨.chunks it, mint, maxt⟩ (.seek t) =
      (⟨.chunks (seek fuel it (max mint t)).1, mint, maxt⟩, true) := by
    simp [BoundedSeriesIterator.step, hseek, hvt]
  rw [StepAgrees, hcon, habs]
  exact ⟨rfl, fun _ => ⟨⟨rfl, rfl, hagree⟩, by simp [BoundedSeriesIterator.at?,
    SeriesIterator.at', hat']⟩⟩

/-- Every call keeps the bounded iterator and the list iterator together. -/
theorem step_agrees (hfuel : 2 * n + 2 ≤ fuel) {b : BoundedSeriesIterator}
    {a : ListIter (Int × ℚ)} (h : Simulates n mint maxt b a) (op : Op Int) :
    StepAgrees n fuel mint maxt b a op := by
  obtain ⟨s, mint', maxt'⟩ := b
  obtain ⟨rfl, rfl, hs⟩ := h
  cases s with
  | errSeries e =>
    have ha : a = ⟨none, []⟩ := hs
    subst ha
    cases op with
    | next => simp [StepAgrees, BoundedSeriesIterator.step, BoundedSeriesIterator.next,
        SeriesIterator.next, ListIter.step, ListIter.next]
    | seek t =>
      by_cases htM : maxt' < t
      · simp [StepAgrees, BoundedSeriesIterator.step, BoundedSeriesIterator.seek, htM,
          ListIter.step, ListIter.seek]
      · simp [StepAgrees, BoundedSeriesIterator.step, BoundedSeriesIterator.seek, htM,
          SeriesIterator.seek, ListIter.step, ListIter.seek]
  | chunks it =>
    cases op with
    | next => exact simulates_next hfuel hs
    | seek t => exact simulates_seek hfuel hs t

/-- Under any sequence of calls, the bounded iterator reads what the list iterator reads. -/
theorem bounded_simulates (hfuel : 2 * n + 2 ≤ fuel) {b : BoundedSeriesIterator}
    {a : ListIter (Int × ℚ)} (h : Simulates n mint maxt b a) (ops : List (Op Int)) :
    run (BoundedSeriesIterator.step fuel) BoundedSeriesIterator.at? b ops =
      run (ListIter.step Prod.fst maxt) ListIter.cur a ops :=
  run_eq_of_simulation (Simulates n mint maxt) (fun _ _ op h => step_agrees hfuel h op) ops b a h

end Simulation

/-! ## From the chunks of a series -/

/-- The samples of the first chunk present, when it decodes. -/
def firstSamples (fromData : Chunk → Except String (List (Int × ℚ))) (chs : List (Option Chunk)) :
    Option (List (Int × ℚ)) :=
  (chs.findSome? id).bind fun ch => (fromData ch).toOption

/-- The samples the query reads from one chunk for `aggrs`: those of the aggregate's chunk or of
the raw one; for sum and count, those of the raw chunk, or the sums over the counts when their
timestamps agree. -/
def readSamples (fromData : Chunk → Except String (List (Int × ℚ))) (aggrs : List Aggr)
    (c : AggrChunk) : Option (List (Int × ℚ)) :=
  match aggrs with
  | [.count] => firstSamples fromData [c.count, c.raw]
  | [.sum] => firstSamples fromData [c.sum, c.raw]
  | [.min] => firstSamples fromData [c.min, c.raw]
  | [.max] => firstSamples fromData [c.max, c.raw]
  | [a, b] =>
    if (a = .sum ∧ b = .count) ∨ (a = .count ∧ b = .sum) then
      match c.raw with
      | some raw => firstSamples fromData [some raw]
      | none =>
        (firstSamples fromData [c.count]).bind fun cs =>
          (firstSamples fromData [c.sum]).bind fun ss =>
            if cs.map (·.1) = ss.map (·.1) then
              some (List.zipWith (fun p q => (p.1, q.2 / p.2)) cs ss)
            else none
    else none
  | _ => none

/-- Samples a chunk can be read for: some, at positive timestamps that ascend. -/
def ReadsWell (xs : List (Int × ℚ)) : Prop := xs ≠ [] ∧ Ascends xs ∧ ∀ p ∈ xs, 0 < p.1

instance (xs : List (Int × ℚ)) : Decidable (ReadsWell xs) :=
  inferInstanceAs (Decidable (_ ∧ _ ∧ _))

/-- A chunk iterator not read yet that reads `xs`. -/
def ChunkIterator.Reads (c : ChunkIterator) (xs : List (Int × ℚ)) : Prop :=
  c.Good ∧ c.atT ≤ 0 ∧ c.rest = xs

theorem ChunkIterator.Reads.fresh {c : ChunkIterator} {xs : List (Int × ℚ)} (h : c.Reads xs)
    (hw : ReadsWell xs) : c.Fresh :=
  ⟨h.1, h.2.1, h.2.2 ▸ hw.1, h.2.2 ▸ hw.2.1, h.2.2 ▸ hw.2.2⟩

section Reading

variable {fromData : Chunk → Except String (List (Int × ℚ))}

theorem getFirstIterator_of_firstSamples {xs : List (Int × ℚ)} :
    ∀ {chs : List (Option Chunk)}, firstSamples fromData chs = some xs →
      getFirstIterator fromData chs = .xor ⟨none, xs⟩
  | [], h => by simp [firstSamples] at h
  | none :: chs, h => by
    rw [getFirstIterator]
    exact getFirstIterator_of_firstSamples (by simpa [firstSamples] using h)
  | some ch :: _, h => by
    cases hf : fromData ch with
    | error e => simp [firstSamples, hf, Except.toOption] at h
    | ok ys =>
      have hys : ys = xs := by simpa [firstSamples, hf, Except.toOption] using h
      simp [getFirstIterator, hf, hys]

theorem aggrIterator_reads {field : AggrChunk → Option Chunk} {c : AggrChunk}
    {xs : List (Int × ℚ)} (h : firstSamples fromData [field c, c.raw] = some xs) :
    (aggrIterator fromData field c).Reads xs := by
  rw [aggrIterator, getFirstIterator_of_firstSamples h]
  exact ⟨trivial, show minInt64 ≤ 0 by decide, rfl⟩

theorem averageIterator_reads {c : AggrChunk} {xs : List (Int × ℚ)} {a b : Aggr}
    (hab : (a = .sum ∧ b = .count) ∨ (a = .count ∧ b = .sum))
    (h : readSamples fromData [a, b] c = some xs) : (averageIterator fromData c).Reads xs := by
  simp only [readSamples, if_pos hab] at h
  cases hraw : c.raw with
  | some raw =>
    simp only [hraw] at h
    simp only [averageIterator, hraw, getFirstIterator_of_firstSamples h]
    exact ⟨trivial, show minInt64 ≤ 0 by decide, rfl⟩
  | none =>
    simp only [hraw] at h
    obtain ⟨cs, hcs, h⟩ := Option.bind_eq_some_iff.mp h
    obtain ⟨ss, hss, h⟩ := Option.bind_eq_some_iff.mp h
    by_cases hts : cs.map (·.1) = ss.map (·.1)
    · rw [if_pos hts, Option.some_inj] at h
      simp only [averageIterator, hraw, getFirstIterator_of_firstSamples hcs,
        getFirstIterator_of_firstSamples hss]
      exact ⟨⟨rfl, hts⟩, le_refl 0, h⟩
    · rw [if_neg hts] at h
      cases h

/-- `chunkSeries.Iterator` bounds a series iterator over one chunk iterator per chunk, each
reading what `readSamples` says. -/
theorem chunkSeriesIterator_bounded {chunks : List AggrChunk} {mint maxt : Int}
    {aggrs : List Aggr} {b : BoundedSeriesIterator}
    (h : chunkSeriesIterator fromData chunks mint maxt aggrs = .bounded b) :
    ∃ g : AggrChunk → ChunkIterator, b = ⟨newChunkSeriesIterator (chunks.map g), mint, maxt⟩ ∧
      ∀ c xs, readSamples fromData aggrs c = some xs → (g c).Reads xs := by
  match aggrs, h with
  | [.count], h => exact ⟨_, (QueryIterator.bounded.inj h).symm, fun _ _ => aggrIterator_reads⟩
  | [.sum], h => exact ⟨_, (QueryIterator.bounded.inj h).symm, fun _ _ => aggrIterator_reads⟩
  | [.min], h => exact ⟨_, (QueryIterator.bounded.inj h).symm, fun _ _ => aggrIterator_reads⟩
  | [.max], h => exact ⟨_, (QueryIterator.bounded.inj h).symm, fun _ _ => aggrIterator_reads⟩
  | [.raw], h => simp [chunkSeriesIterator] at h
  | [.counter], h => simp [chunkSeriesIterator] at h
  | [], h => simp [chunkSeriesIterator] at h
  | _ :: _ :: _ :: _, h => simp [chunkSeriesIterator] at h
  | [a, b], h =>
    by_cases hab : (a = .sum ∧ b = .count) ∨ (a = .count ∧ b = .sum)
    · simp only [chunkSeriesIterator, if_pos hab] at h
      exact ⟨_, (QueryIterator.bounded.inj h).symm, fun _ _ => averageIterator_reads hab⟩
    · simp [chunkSeriesIterator, if_neg hab] at h

theorem fresh_of_reads {aggrs : List Aggr} {g : AggrChunk → ChunkIterator}
    (hg : ∀ c xs, readSamples fromData aggrs c = some xs → (g c).Reads xs) :
    ∀ {chunks : List AggrChunk},
      (∀ c ∈ chunks, ∃ xs, readSamples fromData aggrs c = some xs ∧ ReadsWell xs) →
      (∀ it ∈ chunks.map g, it.Fresh) ∧
        (chunks.map g).map ChunkIterator.rest = chunks.filterMap (readSamples fromData aggrs)
  | [], _ => ⟨by simp, rfl⟩
  | c :: cs, hread => by
    obtain ⟨xs, hxs, hw⟩ := hread c List.mem_cons_self
    obtain ⟨hfresh, hrest⟩ := fresh_of_reads hg fun c' hc' => hread c' (List.mem_cons_of_mem c hc')
    have hc := hg c xs hxs
    refine ⟨?_, ?_⟩
    · intro it hit
      rw [List.map_cons, List.mem_cons] at hit
      rcases hit with rfl | hit
      · exact hc.fresh hw
      · exact hfresh it hit
    · rw [List.map_cons, List.map_cons, hrest, List.filterMap_cons_some hxs, hc.2.2]

end Reading

/-- A new series iterator over chunks not read yet, bounded from a positive `mint`, starts where
the list iterator over their samples from `mint` on starts. -/
theorem simulates_new {its : List ChunkIterator} (hfresh : ∀ c ∈ its, c.Fresh) {mint maxt : Int}
    (hmint : 0 < mint) :
    Simulates (its.map fun c => c.rest.length + 1).sum mint maxt
      ⟨newChunkSeriesIterator its, mint, maxt⟩
      ⟨none, (keepAfter Prod.fst none (its.map ChunkIterator.rest).flatten).filter
        fun p => mint ≤ p.1⟩ := by
  cases its with
  | nil => exact ⟨rfl, rfl, by simp [newChunkSeriesIterator]⟩
  | cons c cs =>
    have hc := hfresh c List.mem_cons_self
    refine ⟨rfl, rfl, ⟨⟨hc.current, fun c' hc' => hfresh c' (List.mem_cons_of_mem c hc')⟩,
      ?_, ?_, .inl ⟨rfl, lt_of_le_of_lt hc.atT_nonpos hmint⟩⟩⟩
    · simp [size]
    · -- before the first sample, the fresh chunk stands before every timestamp
      obtain ⟨x, xs, hx⟩ := List.exists_cons_of_ne_nil hc.ne_nil
      have hhead : ∀ y ∈ ((c :: cs).map ChunkIterator.rest).flatten.head?, c.atT < y.1 := by
        intro y hy
        simp only [List.map_cons, List.flatten_cons, hx, List.cons_append, List.head?_cons,
          Option.mem_def, Option.some.injEq] at hy
        subst hy
        exact lt_of_le_of_lt hc.atT_nonpos (hc.pos x (hx ▸ List.mem_cons_self))
      rw [keepAfter_none_eq hhead]
      rfl

section Series

variable {fromData : Chunk → Except String (List (Int × ℚ))} {chunks : List AggrChunk}
  {mint maxt : Int} {aggrs : List Aggr} {b : BoundedSeriesIterator}

/-- The iterator `chunkSeries.Iterator` returns over chunks that read well starts where the list
iterator over their samples from `mint` on starts. -/
theorem simulates_chunkSeries (hb : chunkSeriesIterator fromData chunks mint maxt aggrs = .bounded b)
    (hread : ∀ c ∈ chunks, ∃ xs, readSamples fromData aggrs c = some xs ∧ ReadsWell xs)
    (hmint : 0 < mint) :
    Simulates ((chunks.filterMap (readSamples fromData aggrs)).map fun xs => xs.length + 1).sum
      mint maxt b
      ⟨none, (keepAfter Prod.fst none (chunks.filterMap (readSamples fromData aggrs)).flatten).filter
        fun p => mint ≤ p.1⟩ := by
  obtain ⟨g, rfl, hg⟩ := chunkSeriesIterator_bounded hb
  obtain ⟨hfresh, hrest⟩ := fresh_of_reads hg hread
  have hsim := @simulates_new _ hfresh mint maxt hmint
  have hsum : ((chunks.map g).map fun c => c.rest.length + 1).sum =
      ((chunks.filterMap (readSamples fromData aggrs)).map fun xs => xs.length + 1).sum := by
    rw [← hrest]
    simp only [List.map_map, Function.comp_def]
  rwa [hrest, hsum] at hsim

end Series

/-- Chunks that decode well below `math.MaxInt64` decode well. -/
theorem readsWell_of_below {fromData : Chunk → Except String (List (Int × ℚ))} {aggrs : List Aggr}
    {chunks : List AggrChunk}
    (h : ∀ c ∈ chunks, ∃ xs, readSamples fromData aggrs c = some xs ∧ ReadsWell xs ∧
      ∀ p ∈ xs, p.1 < 2 ^ 63 - 1) :
    ∀ c ∈ chunks, ∃ xs, readSamples fromData aggrs c = some xs ∧ ReadsWell xs :=
  fun c hc => (h c hc).imp fun _ h => ⟨h.1, h.2.1⟩

/-- What reading a series with `Next` and `Seek` is for: under any sequence of calls, the querier's
series iterator reads what an iterator over the samples of its chunks reads, taken chunk after
chunk, each when later than all taken before, and from `mint` on; `Next` stops past `maxt`.
The samples lie below `math.MaxInt64`, where the int64 sum `lastT + 1` of `Next` does not wrap
and the model's integers are Go's. -/
theorem chunkSeries_iterator_refines (fromData : Chunk → Except String (List (Int × ℚ)))
    (chunks : List AggrChunk) (mint maxt : Int) (aggrs : List Aggr) (b : BoundedSeriesIterator)
    (hb : chunkSeriesIterator fromData chunks mint maxt aggrs = .bounded b)
    (hread : ∀ c ∈ chunks, ∃ xs, readSamples fromData aggrs c = some xs ∧ ReadsWell xs ∧
      ∀ p ∈ xs, p.1 < 2 ^ 63 - 1)
    (hmint : 0 < mint) (fuel : Nat)
    (hfuel : 2 * ((chunks.filterMap (readSamples fromData aggrs)).map
      fun xs => xs.length + 1).sum + 2 ≤ fuel)
    (ops : List (Op Int)) :
    run (BoundedSeriesIterator.step fuel) BoundedSeriesIterator.at? b ops =
      run (ListIter.step Prod.fst maxt) ListIter.cur
        ⟨none, (keepAfter Prod.fst none (chunks.filterMap (readSamples fromData aggrs)).flatten).filter
          fun p => mint ≤ p.1⟩ ops :=
  bounded_simulates hfuel (simulates_chunkSeries hb (readsWell_of_below hread) hmint) ops

/-- Two raw chunks that overlap: the first holds samples at 1 and 3, the second at 2 and 4. -/
def overlapChunks : List AggrChunk :=
  [⟨1, 3, some ⟨0, [1], 0⟩, none, none, none, none, none⟩,
    ⟨2, 4, some ⟨0, [2], 0⟩, none, none, none, none, none⟩]

def overlapData (ch : Chunk) : Except String (List (Int × ℚ)) :=
  if ch.data = [1] then .ok [(1, 1), (3, 2)] else .ok [(2, 5), (4, 6)]

theorem overlapChunks_read_int64 : ∀ c ∈ overlapChunks,
    ∃ xs, readSamples overlapData [.sum] c = some xs ∧ ReadsWell xs ∧ ∀ p ∈ xs, p.1 < 2 ^ 63 - 1 := by
  intro c hc
  simp only [overlapChunks, List.mem_cons, List.not_mem_nil, or_false] at hc
  rcases hc with rfl | rfl
  · exact ⟨_, rfl, by decide, by decide⟩
  · exact ⟨_, rfl, by decide, by decide⟩

theorem overlapChunks_read : ∀ c ∈ overlapChunks,
    ∃ xs, readSamples overlapData [.sum] c = some xs ∧ ReadsWell xs :=
  readsWell_of_below overlapChunks_read_int64

/-- Over `[2, 3]`, seeking 2 and reading on skips the sample at 2 that the first chunk passed. -/
theorem chunkSeries_iterator_refines_overlap :
    run (BoundedSeriesIterator.step 20) BoundedSeriesIterator.at?
      ⟨newChunkSeriesIterator (overlapChunks.map (aggrIterator overlapData AggrChunk.sum)), 2, 3⟩
      [.seek 2, .next] = [some (3, 2)] := by
  rw [chunkSeries_iterator_refines overlapData overlapChunks 2 3 [.sum] _ rfl
    overlapChunks_read_int64 (by decide) 20 (by decide)]
  decide

/-- Read with `Next` alone, the series yields the samples of its chunks, each when later than all
taken before it, from `mint` up to `maxt`, for samples below `math.MaxInt64`. -/
theorem chunkSeries_next_reads (fromData : Chunk → Except String (List (Int × ℚ)))
    (chunks : List AggrChunk) (mint maxt : Int) (aggrs : List Aggr) (b : BoundedSeriesIterator)
    (hb : chunkSeriesIterator fromData chunks mint maxt aggrs = .bounded b)
    (hread : ∀ c ∈ chunks, ∃ xs, readSamples fromData aggrs c = some xs ∧ ReadsWell xs ∧
      ∀ p ∈ xs, p.1 < 2 ^ 63 - 1)
    (hmint : 0 < mint) (fuel : Nat)
    (hfuel : 2 * ((chunks.filterMap (readSamples fromData aggrs)).map
      fun xs => xs.length + 1).sum + 2 ≤ fuel)
    (k : Nat) :
    run (BoundedSeriesIterator.step fuel) BoundedSeriesIterator.at? b (List.replicate k .next) =
      ((((keepAfter Prod.fst none (chunks.filterMap (readSamples fromData aggrs)).flatten).filter
        fun p => mint ≤ p.1).takeWhile fun p => p.1 ≤ maxt).take k).map some := by
  rw [bounded_simulates hfuel (simulates_chunkSeries hb (readsWell_of_below hread) hmint),
    ListIter.run_next]

theorem chunkSeries_next_reads_overlap :
    run (BoundedSeriesIterator.step 20) BoundedSeriesIterator.at?
      ⟨newChunkSeriesIterator (overlapChunks.map (aggrIterator overlapData AggrChunk.sum)), 1, 4⟩
      (List.replicate 5 .next) = [some (1, 1), some (3, 2), some (4, 6)] := by
  rw [chunkSeries_next_reads overlapData overlapChunks 1 4 [.sum] _ rfl
    overlapChunks_read_int64 (by decide) 20 (by decide)]
  decide

/-- `Seek` to a target up to `maxt` is bounded by `mint` only: the first `Seek` stands on the first
sample at the target or later from `mint` on, and says it does even past `maxt`. -/
theorem chunkSeries_seek_unbounded (fromData : Chunk → Except String (List (Int × ℚ)))
    (chunks : List AggrChunk) (mint maxt : Int) (aggrs : List Aggr) (b : BoundedSeriesIterator)
    (hb : chunkSeriesIterator fromData chunks mint maxt aggrs = .bounded b)
    (hread : ∀ c ∈ chunks, ∃ xs, readSamples fromData aggrs c = some xs ∧ ReadsWell xs)
    (hmint : 0 < mint) (fuel : Nat)
    (hfuel : 2 * ((chunks.filterMap (readSamples fromData aggrs)).map
      fun xs => xs.length + 1).sum + 2 ≤ fuel)
    (t : Int) (ht : t ≤ maxt) :
    run (BoundedSeriesIterator.step fuel) BoundedSeriesIterator.at? b [.seek t] =
      ((((keepAfter Prod.fst none (chunks.filterMap (readSamples fromData aggrs)).flatten).filter
        fun p => mint ≤ p.1).dropWhile fun p => p.1 < t).take 1).map some := by
  rw [bounded_simulates hfuel (simulates_chunkSeries hb hread hmint), ListIter.run_seek _ ht]

/-- Over `[2, 2]`, seeking 2 stands on the sample at 3. -/
theorem chunkSeries_seek_unbounded_overlap :
    run (BoundedSeriesIterator.step 20) BoundedSeriesIterator.at?
      ⟨newChunkSeriesIterator (overlapChunks.map (aggrIterator overlapData AggrChunk.sum)), 2, 2⟩
      [.seek 2] = [some (3, 2)] := by
  rw [chunkSeries_seek_unbounded overlapData overlapChunks 2 2 [.sum] _ rfl overlapChunks_read
    (by decide) 20 (by decide) 2 (le_refl 2)]
  decide

end Thanos.Query
