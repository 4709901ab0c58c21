import Thanos.Go.Sort
import Mathlib.Algebra.Order.Ring.Rat

/-! # Rewriting a series with deletion intervals

`DeletionModifier` hands every series with deletion intervals to a
`delGenericSeriesIterator` read as a chunk iterator. For each chunk it drops the chunk when
its `[MinTime, MaxTime]` lies in one interval, passes it on when no interval overlaps it,
and otherwise re-encodes the samples that `tsdb.DeletedIterator` leaves, setting the
chunk's times to the first and last of them.

A chunk whose samples all lie in the intervals, but in two or more of them, is neither
dropped nor left with a sample: the re-encoding finds it empty and sets the iterator's
error to `errors.Wrap(err, ...)` of an `err` that is nil, which is nil. The iteration then
stops with no error, and the chunks after it are lost (`next_stops_silently`).

A chunk is its times and its samples, which is what its iterator yields;
`DeletedIterator` yields the samples outside its intervals, and reading chunks of
decoded samples never fails. `Intervals.Add` is Prometheus' `tombstones.Intervals.Add`. -/

namespace Thanos.Compactv2

/-- `math.MinInt64`. -/
def minInt64 : Int := -2 ^ 63

/-- `math.MaxInt64`. -/
def maxInt64 : Int := 2 ^ 63 - 1

/-- `tombstones.Interval`: the closed range `[Mint, Maxt]`. -/
structure Interval where
  mint : Int
  maxt : Int
  deriving DecidableEq, Repr

namespace Interval

def inBounds (tr : Interval) (t : Int) : Bool :=
  decide (t ≥ tr.mint ∧ t ≤ tr.maxt)

/-- `IsSubrange`: the interval lies in one of the ranges. -/
def isSubrange (tr : Interval) (dranges : List Interval) : Bool :=
  dranges.any fun r => r.inBounds tr.mint && r.inBounds tr.maxt

end Interval

/-- `tombstones.Intervals.Add`: the new range merged with the ranges of a sorted list that
it overlaps or touches. -/
def Intervals.add (intervals : List Interval) (n : Interval) : List Interval :=
  if intervals.length = 0 then intervals ++ [n]
  else
    let mini := if n.mint ≠ minInt64 then
      Go.Sort.search intervals.length fun i => decide ((intervals.getD i n).maxt ≥ n.mint - 1)
      else 0
    if n.mint ≠ minInt64 ∧ mini = intervals.length then intervals ++ [n]
    else
      let maxi := if n.maxt ≠ maxInt64 then
        Go.Sort.search (intervals.length - mini) fun i =>
          decide ((intervals.getD (mini + i) n).mint > n.maxt + 1)
        else intervals.length
      if n.maxt ≠ maxInt64 ∧ maxi = 0 then
        intervals.take mini ++ n :: intervals.drop mini
      else
        let first := intervals.getD mini n
        let merged : Interval :=
          ⟨min n.mint first.mint, max n.maxt (intervals.getD (maxi + mini - 1) n).maxt⟩
        intervals.take mini ++ merged :: intervals.drop (maxi + mini)

/-- `intersection`: the parts of the ranges that lie in `i`. -/
def intersection (i : Interval) (dranges : List Interval) : List Interval :=
  dranges.foldl (fun ret r =>
    let isLeftIn := decide (r.mint ≤ i.maxt)
    let isRightIn := decide (i.mint ≤ r.maxt)
    if !isLeftIn || !isRightIn then ret
    else Intervals.add ret ⟨max r.mint i.mint, min r.maxt i.maxt⟩) []

/-- `chunks.Meta`, with the chunk as the samples its iterator yields. -/
structure ChunkMeta (V : Type) where
  minTime : Int
  maxTime : Int
  samples : List (Int × V)
  deriving DecidableEq, Repr

variable {V : Type}

def ChunkMeta.overlapsClosedInterval (c : ChunkMeta V) (mint maxt : Int) : Bool :=
  decide (c.minTime ≤ maxt ∧ mint ≤ c.maxTime)

/-- What `tsdb.DeletedIterator` yields: the samples in none of its intervals. -/
def deletedIterator (intervals : List Interval) (samples : List (Int × V)) : List (Int × V) :=
  samples.filter fun s => !intervals.any (·.inBounds s.1)

/-- `errors.Wrap`: nil for a nil error. -/
def errorsWrap (err : Option String) (message : String) : Option String :=
  err.map fun e => message ++ ": " ++ e

/-- `delGenericSeriesIterator`, with the chunks its chunk iterator has still to yield, the
samples left in `currDelIter` (`none` for a nil iterator) and the deleted ranges it has
logged. -/
structure DelGenericSeriesIterator (V : Type) where
  chks : List (ChunkMeta V)
  err : Option String
  bufIntervals : List Interval
  intervals : List Interval
  currDelIter : Option (List (Int × V))
  currChkMeta : Option (ChunkMeta V)
  deleted : List Interval
  logged : List (List Interval)
  deriving DecidableEq, Repr

def newDelGenericSeriesIterator (chks : List (ChunkMeta V)) (intervals : List Interval) :
    DelGenericSeriesIterator V :=
  ⟨chks, none, [], intervals, none, none, [], []⟩

/-- The intervals `next` collects in `bufIter.Intervals`: those that overlap the chunk. -/
def bufIntervalsOf (intervals : List Interval) (c : ChunkMeta V) : List Interval :=
  intervals.foldl (fun b interval =>
    if c.overlapsClosedInterval interval.mint interval.maxt then Intervals.add b interval else b) []

/-- The loop of `next` over the chunks. -/
def nextLoop : List (ChunkMeta V) → DelGenericSeriesIterator V → DelGenericSeriesIterator V × Bool
  | [], d =>
    ({ d with
      chks := [], logged := if d.deleted.length > 0 then d.logged ++ [d.deleted] else d.logged },
      false)
  | c :: cs, d =>
    let chk : Interval := ⟨c.minTime, c.maxTime⟩
    if chk.isSubrange d.intervals then
      -- the whole chunk is deleted
      nextLoop cs { d with currChkMeta := some c, deleted := Intervals.add d.deleted chk }
    else
      let bufIntervals := bufIntervalsOf d.intervals c
      if bufIntervals.length = 0 then
        ({ d with
          chks := cs, currChkMeta := some c, bufIntervals := bufIntervals, currDelIter := none },
          true)
      else
        -- only part of the chunk is deleted
        ({ d with
          chks := cs, currChkMeta := some c, bufIntervals := bufIntervals,
          deleted := (intersection chk bufIntervals).foldl Intervals.add d.deleted,
          currDelIter := some (deletedIterator bufIntervals c.samples) }, true)

/-- `delGenericSeriesIterator.next`. -/
def DelGenericSeriesIterator.next (d : DelGenericSeriesIterator V) :
    DelGenericSeriesIterator V × Bool :=
  if d.err.isSome then (d, false) else nextLoop d.chks d

/-- `delChunkSeriesIterator`: the generic iterator and the chunk it stands on. -/
structure DelChunkSeriesIterator (V : Type) where
  gen : DelGenericSeriesIterator V
  curr : Option (ChunkMeta V)
  deriving DecidableEq, Repr

def DelGenericSeriesIterator.toChunkSeriesIterator (d : DelGenericSeriesIterator V) :
    DelChunkSeriesIterator V :=
  ⟨d, none⟩

/-- The message of the empty re-encoded chunk. -/
def errUnexpectedEmptyChunk : String :=
  "populateWithDelChunkSeriesIterator: unexpected empty chunk found while rewriting chunk"

/-- `delChunkSeriesIterator.Next`. The `err` it wraps for an empty chunk is the nil error
of `newChunk.Appender()`. -/
def DelChunkSeriesIterator.next (p : DelChunkSeriesIterator V) :
    DelChunkSeriesIterator V × Bool :=
  match p.gen.next with
  | (g, false) => ({ p with gen := g }, false)
  | (g, true) =>
    match g.currDelIter with
    | none => (⟨g, g.currChkMeta⟩, true)
    | some [] => (⟨{ g with err := errorsWrap none errUnexpectedEmptyChunk }, g.currChkMeta⟩, false)
    | some ((t, v) :: rest) =>
      -- re-encode the samples left; the times are the first and the last of them
      let samples := (t, v) :: rest
      let maxTime := (samples.getLast (List.cons_ne_nil _ _)).1
      (⟨{ g with currDelIter := some [] },
        g.currChkMeta.map fun c => { c with minTime := t, maxTime := maxTime, samples := samples }⟩,
        true)

/-- `Err` of the chunk iterator: the iterator's error, the chunks' reader never failing. -/
def DelChunkSeriesIterator.err (p : DelChunkSeriesIterator V) : Option String :=
  p.gen.err

/-- Calling `Next` until it returns false, at most `fuel` times: the chunks `At` returned,
and `Err` at the end. -/
def DelChunkSeriesIterator.run : Nat → DelChunkSeriesIterator V → List (ChunkMeta V) × Option String
  | 0, p => ([], p.err)
  | fuel + 1, p =>
    match p.next with
    | (p', true) => (p'.curr.toList ++ (run fuel p').1, (run fuel p').2)
    | (p', false) => ([], p'.err)

/-! ## A chunk deleted by two intervals -/

section Silent

variable {p : DelChunkSeriesIterator V} {c : ChunkMeta V} {cs : List (ChunkMeta V)}

/-- A chunk that lies in no single interval, overlaps some, and has all its samples in them:
`Next` returns false with no error, past the chunk. -/
theorem next_stops_silently (herr : p.gen.err = none) (hchks : p.gen.chks = c :: cs)
    (hsub : (Interval.mk c.minTime c.maxTime).isSubrange p.gen.intervals = false)
    (hbuf : bufIntervalsOf p.gen.intervals c ≠ [])
    (hempty : deletedIterator (bufIntervalsOf p.gen.intervals c) c.samples = []) :
    p.next.2 = false ∧ p.next.1.err = none ∧ p.next.1.gen.chks = cs := by
  have hlen : ¬(bufIntervalsOf p.gen.intervals c).length = 0 := by
    simpa [List.length_eq_zero_iff] using hbuf
  have hgen : p.gen.next = ({ p.gen with
      chks := cs, currChkMeta := some c, bufIntervals := bufIntervalsOf p.gen.intervals c,
      deleted := (intersection ⟨c.minTime, c.maxTime⟩ (bufIntervalsOf p.gen.intervals c)).foldl
        Intervals.add p.gen.deleted,
      currDelIter := some [] }, true) := by
    rw [DelGenericSeriesIterator.next, herr, hchks]
    simp only [Option.isSome_none, Bool.false_eq_true, if_false, nextLoop, hsub, hlen]
    rw [hempty]
  simp [DelChunkSeriesIterator.next, hgen, DelChunkSeriesIterator.err, errorsWrap]

/-- So the run ends there, with nothing more yielded and no error, whatever chunks follow. -/
theorem run_stops_silently (herr : p.gen.err = none) (hchks : p.gen.chks = c :: cs)
    (hsub : (Interval.mk c.minTime c.maxTime).isSubrange p.gen.intervals = false)
    (hbuf : bufIntervalsOf p.gen.intervals c ≠ [])
    (hempty : deletedIterator (bufIntervalsOf p.gen.intervals c) c.samples = []) (fuel : Nat) :
    p.run (fuel + 1) = ([], none) := by
  obtain ⟨hfalse, herr', -⟩ := next_stops_silently herr hchks hsub hbuf hempty
  rw [DelChunkSeriesIterator.run]
  rcases hnext : p.next with ⟨p', b⟩
  rw [hnext] at hfalse herr'
  subst hfalse
  exact Prod.ext rfl herr'

end Silent

/-! ## What the rewrite yields when no chunk is emptied -/

/-- Intervals as `Intervals.Add` leaves them: `int64` ends, sorted, with a gap of at least
one timestamp between two of them. -/
structure Normalized (intervals : List Interval) : Prop where
  int64 : ∀ r ∈ intervals, minInt64 ≤ r.maxt
  sorted : intervals.Pairwise fun a b => a.maxt + 1 < b.mint

/-- A well-formed chunk as the TSDB writes it: samples sorted by time, the chunk's times those
of its first and last sample. -/
structure ValidChunk (c : ChunkMeta V) : Prop where
  sorted : (c.samples.map Prod.fst).Pairwise (· < ·)
  first : c.samples.head?.map Prod.fst = some c.minTime
  last : c.samples.getLast?.map Prod.fst = some c.maxTime

section Rewrite

theorem search_eq_of_forall_false {n : Nat} {f : Nat → Bool} (hf : ∀ k < n, f k = false) :
    Go.Sort.search n f = n := by
  obtain ⟨hle, -, hat⟩ := Go.Sort.search_spec (n := n) (f := f)
    (fun a _ _ hb ha => by rw [hf a (by omega)] at ha; cases ha)
  by_contra hne
  have := hat (by omega)
  rw [hf _ (by omega)] at this
  cases this

/-- Adding a range after all the ranges of the list appends it. -/
theorem add_of_forall_lt {intervals : List Interval} {n : Interval}
    (h : ∀ r ∈ intervals, minInt64 ≤ r.maxt ∧ r.maxt + 1 < n.mint) :
    Intervals.add intervals n = intervals ++ [n] := by
  unfold Intervals.add
  by_cases hlen : intervals.length = 0
  · rw [if_pos hlen]
  · rw [if_neg hlen]
    obtain ⟨r, hr⟩ := List.exists_mem_of_length_pos (by omega : 0 < intervals.length)
    have hne : n.mint ≠ minInt64 := by have := h r hr; omega
    have hsearch : Go.Sort.search intervals.length
        (fun i => decide ((intervals.getD i n).maxt ≥ n.mint - 1)) = intervals.length := by
      apply search_eq_of_forall_false
      intro k hk
      have := h _ (List.getElem_mem hk)
      have hget : intervals.getD k n = intervals[k] := by simp [hk]
      simp only [hget, decide_eq_false_iff_not]
      omega
    simp only [hne, if_true, ne_eq, not_false_eq_true, hsearch, and_self]

/-- Over normalized intervals, `bufIter.Intervals` are the intervals that overlap the chunk. -/
theorem bufIntervalsOf_eq_filter {intervals : List Interval} (hint : Normalized intervals)
    (c : ChunkMeta V) :
    bufIntervalsOf intervals c =
      intervals.filter fun r => c.overlapsClosedInterval r.mint r.maxt := by
  -- the fold from any prefix kept so far, over the intervals after it
  suffices h : ∀ (l b : List Interval), (b ++ l).Pairwise (fun a b => a.maxt + 1 < b.mint) →
      (∀ r ∈ b ++ l, minInt64 ≤ r.maxt) →
      l.foldl (fun b interval => if c.overlapsClosedInterval interval.mint interval.maxt then
        Intervals.add b interval else b) b =
        b ++ l.filter fun r => c.overlapsClosedInterval r.mint r.maxt by
    rw [bufIntervalsOf]
    simpa using h intervals [] (by simpa using hint.sorted) (by simpa using hint.int64)
  intro l
  induction l with
  | nil => simp
  | cons x l ih =>
    intro b hsorted hint64
    have hafter : ∀ r ∈ b, minInt64 ≤ r.maxt ∧ r.maxt + 1 < x.mint := fun r hr =>
      ⟨hint64 r (List.mem_append_left _ hr),
        (List.pairwise_append.mp hsorted).2.2 r hr x List.mem_cons_self⟩
    rw [List.foldl_cons]
    by_cases hov : c.overlapsClosedInterval x.mint x.maxt = true
    · rw [if_pos hov, add_of_forall_lt hafter, ih (b ++ [x]) (by simpa using hsorted)
        (by simpa using hint64)]
      simp [hov]
    · rw [if_neg hov, ih b (List.pairwise_append.mpr ⟨(List.pairwise_append.mp hsorted).1,
        (List.pairwise_cons.mp (List.pairwise_append.mp hsorted).2.1).2,
        fun a ha y hy => (List.pairwise_append.mp hsorted).2.2 a ha y (List.mem_cons_of_mem x hy)⟩)
        (fun r hr => hint64 r (by simp at hr ⊢; tauto))]
      simp [hov]

variable {c : ChunkMeta V}

theorem ValidChunk.bounds (hc : ValidChunk c) {s : Int × V} (hs : s ∈ c.samples) :
    c.minTime ≤ s.1 ∧ s.1 ≤ c.maxTime := by
  obtain ⟨s₀, rest, hcs⟩ := List.exists_cons_of_ne_nil (l := c.samples)
    (by intro h; have := hc.first; simp [h] at this)
  constructor
  · -- the first sample is the earliest
    have hfirst : s₀.1 = c.minTime := by simpa [hcs] using hc.first
    have hsorted := hc.sorted
    rw [hcs, List.map_cons, List.pairwise_cons] at hsorted
    rw [hcs, List.mem_cons] at hs
    rcases hs with rfl | hs
    · omega
    · have := hsorted.1 s.1 (List.mem_map_of_mem hs)
      omega
  · -- the last sample is the latest
    obtain ⟨init, sl, hsl⟩ := List.eq_nil_or_concat c.samples |>.resolve_left
      (by rw [hcs]; exact List.cons_ne_nil _ _)
    rw [List.concat_eq_append] at hsl
    have hlast : sl.1 = c.maxTime := by simpa [hsl] using hc.last
    have hsorted := hc.sorted
    rw [hsl, List.map_append, List.pairwise_append] at hsorted
    rw [hsl, List.mem_append] at hs
    rcases hs with hs | hs
    · have := hsorted.2.2 s.1 (List.mem_map_of_mem hs) sl.1 (by simp)
      omega
    · obtain rfl := List.mem_singleton.mp hs
      omega

/-- A chunk within one interval keeps no sample. -/
theorem deletedIterator_of_isSubrange (hc : ValidChunk c) {intervals : List Interval}
    (hsub : (Interval.mk c.minTime c.maxTime).isSubrange intervals = true) :
    deletedIterator intervals c.samples = [] := by
  obtain ⟨r, hr, hin⟩ := List.any_eq_true.mp hsub
  simp only [Interval.inBounds, Bool.and_eq_true, decide_eq_true_eq] at hin
  rw [deletedIterator, List.filter_eq_nil_iff]
  intro s hs
  have hb := hc.bounds hs
  simp only [Bool.not_eq_true', Bool.not_eq_false, List.any_eq_true]
  exact ⟨r, hr, by simp [Interval.inBounds]; omega⟩

/-- The samples a chunk keeps are those outside the intervals that overlap it. -/
theorem deletedIterator_filter_overlaps (hc : ValidChunk c) (intervals : List Interval) :
    deletedIterator (intervals.filter fun r => c.overlapsClosedInterval r.mint r.maxt) c.samples =
      deletedIterator intervals c.samples := by
  unfold deletedIterator
  refine List.filter_congr fun s hs => ?_
  have hb := hc.bounds hs
  congr 1
  rw [Bool.eq_iff_iff, List.any_eq_true, List.any_eq_true]
  constructor
  · rintro ⟨r, hr, hin⟩
    exact ⟨r, (List.mem_filter.mp hr).1, hin⟩
  · rintro ⟨r, hr, hin⟩
    refine ⟨r, List.mem_filter.mpr ⟨hr, ?_⟩, hin⟩
    simp only [Interval.inBounds, decide_eq_true_eq] at hin
    simp only [ChunkMeta.overlapsClosedInterval, decide_eq_true_eq]
    omega

/-- The re-encoded chunk of the samples a chunk keeps. -/
theorem validChunk_rewrite (hc : ValidChunk c) {intervals : List Interval} {t : Int} {v : V}
    {rest : List (Int × V)} (h : deletedIterator intervals c.samples = (t, v) :: rest) :
    ValidChunk
      { c with
        minTime := t, maxTime := (((t, v) :: rest).getLast (List.cons_ne_nil _ _)).1,
        samples := (t, v) :: rest } where
  sorted := by
    show (((t, v) :: rest).map Prod.fst).Pairwise (· < ·)
    rw [← h]
    exact hc.sorted.sublist ((List.filter_sublist).map Prod.fst)
  first := rfl
  last := by simp [List.getLast?_eq_some_getLast]

theorem deletedIterator_append (intervals : List Interval) (a b : List (Int × V)) :
    deletedIterator intervals (a ++ b) = deletedIterator intervals a ++ deletedIterator intervals b :=
  List.filter_append a b

/-- `nextLoop` reads its chunks from its argument, never from the field. -/
theorem nextLoop_with_chks (l : List (ChunkMeta V)) (d : DelGenericSeriesIterator V)
    (x : List (ChunkMeta V)) : nextLoop l { d with chks := x } = nextLoop l d := by
  induction l generalizing d with
  | nil => rfl
  | cons c cs ih =>
    simp only [nextLoop]
    split
    · exact ih { d with
        currChkMeta := some c, deleted := Intervals.add d.deleted ⟨c.minTime, c.maxTime⟩ }
    · rfl

theorem run_congr {p q : DelChunkSeriesIterator V} (h : p.next = q.next) (fuel : Nat) :
    p.run (fuel + 1) = q.run (fuel + 1) := by
  simp only [DelChunkSeriesIterator.run, h]

variable {p : DelChunkSeriesIterator V} {cs : List (ChunkMeta V)}

/-- A chunk within one interval: `Next` goes on to the next chunk. -/
theorem next_of_isSubrange (herr : p.gen.err = none) (hchks : p.gen.chks = c :: cs)
    (hsub : (Interval.mk c.minTime c.maxTime).isSubrange p.gen.intervals = true) :
    p.next = (⟨{ p.gen with
      chks := cs, currChkMeta := some c,
      deleted := Intervals.add p.gen.deleted ⟨c.minTime, c.maxTime⟩ }, p.curr⟩ :
        DelChunkSeriesIterator V).next := by
  have hgen : p.gen.next = DelGenericSeriesIterator.next { p.gen with
      chks := cs, currChkMeta := some c,
      deleted := Intervals.add p.gen.deleted ⟨c.minTime, c.maxTime⟩ } := by
    simp only [DelGenericSeriesIterator.next, herr, hchks, Option.isSome_none,
      Bool.false_eq_true, if_false, nextLoop, hsub, if_true]
    exact (nextLoop_with_chks cs _ cs).symm
  simp only [DelChunkSeriesIterator.next, hgen]

/-- A chunk no interval overlaps: `Next` yields it as it is. -/
theorem next_of_no_overlap (herr : p.gen.err = none) (hchks : p.gen.chks = c :: cs)
    (hsub : (Interval.mk c.minTime c.maxTime).isSubrange p.gen.intervals = false)
    (hbuf : bufIntervalsOf p.gen.intervals c = []) :
    p.next = (⟨{ p.gen with
      chks := cs, currChkMeta := some c, bufIntervals := [], currDelIter := none }, some c⟩,
        true) := by
  have hgen : p.gen.next = ({ p.gen with
      chks := cs, currChkMeta := some c, bufIntervals := [], currDelIter := none }, true) := by
    simp only [DelGenericSeriesIterator.next, herr, hchks, Option.isSome_none,
      Bool.false_eq_true, if_false, nextLoop, hsub, hbuf, List.length_nil, if_true]
  simp only [DelChunkSeriesIterator.next, hgen]

/-- A chunk some interval overlaps that keeps a sample: `Next` yields the re-encoded
samples it keeps. -/
theorem next_of_overlap (herr : p.gen.err = none) (hchks : p.gen.chks = c :: cs)
    (hsub : (Interval.mk c.minTime c.maxTime).isSubrange p.gen.intervals = false)
    (hbuf : bufIntervalsOf p.gen.intervals c ≠ []) {t : Int} {v : V} {rest : List (Int × V)}
    (hkeep : deletedIterator (bufIntervalsOf p.gen.intervals c) c.samples = (t, v) :: rest) :
    ∃ g : DelGenericSeriesIterator V, g.chks = cs ∧ g.err = none ∧
      g.intervals = p.gen.intervals ∧
      p.next = (⟨g, some { c with
        minTime := t, maxTime := (((t, v) :: rest).getLast (List.cons_ne_nil _ _)).1,
        samples := (t, v) :: rest }⟩, true) := by
  have hlen : ¬(bufIntervalsOf p.gen.intervals c).length = 0 := by
    simpa [List.length_eq_zero_iff] using hbuf
  refine ⟨{ p.gen with
      chks := cs, currChkMeta := some c, bufIntervals := bufIntervalsOf p.gen.intervals c,
      deleted := (intersection ⟨c.minTime, c.maxTime⟩ (bufIntervalsOf p.gen.intervals c)).foldl
        Intervals.add p.gen.deleted,
      currDelIter := some [] }, rfl, herr, rfl, ?_⟩
  have hgen : p.gen.next = ({ p.gen with
      chks := cs, currChkMeta := some c, bufIntervals := bufIntervalsOf p.gen.intervals c,
      deleted := (intersection ⟨c.minTime, c.maxTime⟩ (bufIntervalsOf p.gen.intervals c)).foldl
        Intervals.add p.gen.deleted,
      currDelIter := some ((t, v) :: rest) }, true) := by
    rw [DelGenericSeriesIterator.next, herr, hchks]
    simp only [Option.isSome_none, Bool.false_eq_true, if_false, nextLoop, hsub, hlen]
    rw [hkeep]
  simp only [DelChunkSeriesIterator.next, hgen, Option.map_some]

end Rewrite

/-- With normalized intervals and no chunk whose samples are all deleted without it lying in
one interval, the chunk iterator runs to its end with no error and yields valid chunks, in
order, whose samples are exactly the input samples in no interval. -/
theorem run_rewrites_chunks {intervals : List Interval} (hint : Normalized intervals) :
    ∀ (chks : List (ChunkMeta V)), (∀ c ∈ chks, ValidChunk c) →
      (∀ c ∈ chks, (Interval.mk c.minTime c.maxTime).isSubrange intervals = false →
        deletedIterator intervals c.samples ≠ []) →
      ∀ (p : DelChunkSeriesIterator V), p.gen.chks = chks → p.gen.err = none →
        p.gen.intervals = intervals → ∀ fuel, chks.length < fuel →
          ∃ ys, p.run fuel = (ys, none) ∧
            ys.flatMap ChunkMeta.samples = deletedIterator intervals (chks.flatMap ChunkMeta.samples) ∧
            ∀ y ∈ ys, ValidChunk y := by
  intro chks
  induction chks with
  | nil =>
    intro _ _ p hchks herr _ fuel hfuel
    obtain ⟨fuel, rfl⟩ : ∃ f, fuel = f + 1 := ⟨fuel - 1, by simp at hfuel; omega⟩
    refine ⟨[], ?_, by simp [deletedIterator], by simp⟩
    simp [DelChunkSeriesIterator.run, DelChunkSeriesIterator.next, DelGenericSeriesIterator.next,
      herr, hchks, nextLoop, DelChunkSeriesIterator.err]
  | cons c cs ih =>
    intro hvalid hkeeps p hchks herr hintervals fuel hfuel
    obtain ⟨fuel, rfl⟩ : ∃ f, fuel = f + 1 := ⟨fuel - 1, by simp at hfuel; omega⟩
    have hc := hvalid c List.mem_cons_self
    have hvalid' := fun c' hc' => hvalid c' (List.mem_cons_of_mem c hc')
    have hkeeps' := fun c' hc' => hkeeps c' (List.mem_cons_of_mem c hc')
    have hbufeq := bufIntervalsOf_eq_filter hint c
    rw [← hintervals] at hbufeq
    by_cases hsub : (Interval.mk c.minTime c.maxTime).isSubrange intervals = true
    · -- the chunk is dropped whole, and the run goes on from the next chunk
      rw [← hintervals] at hsub
      obtain ⟨ys, hrun, hys, hvalid⟩ := ih hvalid' hkeeps' ⟨{ p.gen with
          chks := cs, currChkMeta := some c,
          deleted := Intervals.add p.gen.deleted ⟨c.minTime, c.maxTime⟩ }, p.curr⟩
        rfl herr hintervals (fuel + 1) (by simp at hfuel; omega)
      refine ⟨ys, (run_congr (next_of_isSubrange herr hchks hsub) fuel).trans hrun, ?_, hvalid⟩
      rw [hys, List.flatMap_cons, deletedIterator_append,
        deletedIterator_of_isSubrange hc (hintervals ▸ hsub), List.nil_append]
    · rw [Bool.not_eq_true] at hsub
      have hsub' := hsub
      rw [← hintervals] at hsub'
      by_cases hbuf : bufIntervalsOf p.gen.intervals c = []
      · -- no interval overlaps the chunk: it is yielded as it is
        have hnone : deletedIterator intervals c.samples = c.samples := by
          rw [← deletedIterator_filter_overlaps hc, ← hintervals, ← hbufeq, hbuf]
          simp [deletedIterator]
        obtain ⟨ys, hrun, hys, hvalid⟩ := ih hvalid' hkeeps' ⟨{ p.gen with
            chks := cs, currChkMeta := some c, bufIntervals := [], currDelIter := none }, some c⟩
          rfl herr hintervals fuel (by simp at hfuel; omega)
        refine ⟨c :: ys, ?_, ?_, ?_⟩
        · simp only [DelChunkSeriesIterator.run, next_of_no_overlap herr hchks hsub' hbuf]
          simp only [Option.toList_some, List.singleton_append, hrun]
        · rw [List.flatMap_cons, hys, List.flatMap_cons, deletedIterator_append, hnone]
        · intro y hy
          rcases List.mem_cons.mp hy with rfl | hy
          · exact hc
          · exact hvalid y hy
      · -- some interval overlaps it: the samples it keeps are re-encoded
        have hkept : deletedIterator (bufIntervalsOf p.gen.intervals c) c.samples =
            deletedIterator intervals c.samples := by
          rw [hbufeq, hintervals, deletedIterator_filter_overlaps hc]
        obtain ⟨⟨t, v⟩, rest, hcons⟩ := List.exists_cons_of_ne_nil (hkeeps c List.mem_cons_self hsub)
        obtain ⟨g, hg, hgerr, hgint, hnext⟩ :=
          next_of_overlap herr hchks hsub' hbuf (hkept.trans hcons)
        obtain ⟨ys, hrun, hys, hvalid⟩ := ih hvalid' hkeeps' p.next.1 (by rw [hnext]; exact hg)
          (by rw [hnext]; exact hgerr) (by rw [hnext]; exact hgint.trans hintervals) fuel
          (by simp at hfuel; omega)
        rw [hnext] at hrun
        refine ⟨{ c with
          minTime := t, maxTime := (((t, v) :: rest).getLast (List.cons_ne_nil _ _)).1,
          samples := (t, v) :: rest } :: ys, ?_, ?_, ?_⟩
        · simp only [DelChunkSeriesIterator.run, hnext]
          simp only [Option.toList_some, List.singleton_append, hrun]
        · rw [List.flatMap_cons, hys, List.flatMap_cons, deletedIterator_append, hcons]
        · intro y hy
          rcases List.mem_cons.mp hy with rfl | hy
          · exact validChunk_rewrite hc hcons
          · exact hvalid y hy

/-- Two chunks, the first with samples at `1` and `10`, and the intervals `[0, 2]` and
`[9, 11]` that `Intervals.Add` builds: the first chunk is re-encoded empty, and the samples
at `20` and `30` of the second are lost with no error. -/
theorem run_loses_chunks_after_emptied_chunk :
    Intervals.add (Intervals.add [] ⟨0, 2⟩) ⟨9, 11⟩ = [⟨0, 2⟩, ⟨9, 11⟩] ∧
      deletedIterator [⟨0, 2⟩, ⟨9, 11⟩]
          (([⟨1, 10, [(1, 1), (10, 2)]⟩, ⟨20, 30, [(20, 3), (30, 4)]⟩] : List (ChunkMeta ℚ)).flatMap
            ChunkMeta.samples) = [(20, 3), (30, 4)] ∧
      DelChunkSeriesIterator.run 3 (newDelGenericSeriesIterator
          ([⟨1, 10, [(1, 1), (10, 2)]⟩, ⟨20, 30, [(20, 3), (30, 4)]⟩] : List (ChunkMeta ℚ))
          [⟨0, 2⟩, ⟨9, 11⟩]).toChunkSeriesIterator = ([], none) := by
  decide

end Thanos.Compactv2
