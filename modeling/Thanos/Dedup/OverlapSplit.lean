import Thanos.Store.StorePB
import Mathlib.Data.List.Perm.Basic
import Mathlib.Data.List.Chain

/-! # Splitting overlapping chunks into replicas

`overlapSplitSet` (`NewOverlapSplit`) sits in front of the deduplicating series set: a
series whose chunks overlap in time is returned as several entries with the same labels,
each a run of chunks that do not overlap, so that the sample-level deduplication reads
them as replicas. A chunk goes to the first replica whose last chunk ends before the
chunk starts, and opens a new replica when there is none.

The input `storepb.SeriesSet` is the list of series it still yields, each its labels and
its chunks. `OverlapSplitSet.rest` is what the set still yields; `OverlapSplitSet.next_rest`
says that every `Next` followed by `At` consumes its head, so that a whole run yields
`splitEntries` of the input. Every series' entries partition its chunks into runs of the
input order without overlaps (`Partition`); nothing of this needs the chunks sorted by
minimum time. -/

namespace Thanos.Dedup

open Thanos.Store (AggrChunk)

/-- Consecutive chunks of a replica do not overlap: each ends before the next starts. -/
abbrev EndsBefore (c c' : AggrChunk) : Prop := c.maxTime < c'.minTime

/-- The test of the inner loop of `overlapSplitSet.Next`: the replica is empty or its last
chunk ends before `c` starts (a replica without chunks has no last chunk). -/
def Fits (r : List AggrChunk) (c : AggrChunk) : Prop :=
  ∀ l ∈ r.getLast?, l.maxTime < c.minTime

instance (r : List AggrChunk) (c : AggrChunk) : Decidable (Fits r c) :=
  inferInstanceAs (Decidable (∀ l ∈ r.getLast?, l.maxTime < c.minTime))

/-- The loop over `o.replicas` for one chunk: append it to the first replica it fits,
else add it as a new "fake" series. -/
def placeChunk (c : AggrChunk) : List (List AggrChunk) → List (List AggrChunk)
  | [] => [[c]]
  | r :: rs => if Fits r c then (r ++ [c]) :: rs else r :: placeChunk c rs

/-- The replicas `overlapSplitSet.Next` builds for one series: the first chunk opens
replica `0`, every further one is placed first fit; a series without chunks leaves the one
empty replica `append(o.replicas[:0], nil)`. -/
def splitChunks : List AggrChunk → List (List AggrChunk)
  | [] => [[]]
  | c :: cs => cs.foldl (fun rs c => placeChunk c rs) [[c]]

section Place

variable {c : AggrChunk}

theorem flatten_placeChunk (rs : List (List AggrChunk)) :
    (placeChunk c rs).flatten.Perm (rs.flatten ++ [c]) := by
  induction rs with
  | nil => simp [placeChunk]
  | cons r rs ih =>
    unfold placeChunk
    split
    · simpa using (List.perm_append_singleton c rs.flatten).symm.append_left r
    · simpa using ih.append_left r

/-- A replica after placing `c` was there before, is one that `c` fits with `c` appended,
or is `c` alone. -/
theorem mem_placeChunk {r : List AggrChunk} {rs : List (List AggrChunk)}
    (h : r ∈ placeChunk c rs) : r ∈ rs ∨ (∃ r' ∈ rs, Fits r' c ∧ r = r' ++ [c]) ∨ r = [c] := by
  induction rs with
  | nil => simp_all [placeChunk]
  | cons r' rs ih =>
    unfold placeChunk at h
    split at h
    · rename_i hfit
      rcases List.mem_cons.mp h with rfl | h
      · exact Or.inr (Or.inl ⟨r', List.mem_cons_self, hfit, rfl⟩)
      · exact Or.inl (List.mem_cons_of_mem r' h)
    · rcases List.mem_cons.mp h with rfl | h
      · exact Or.inl List.mem_cons_self
      · rcases ih h with h | ⟨r'', hr'', hfit, rfl⟩ | rfl
        · exact Or.inl (List.mem_cons_of_mem r' h)
        · exact Or.inr (Or.inl ⟨r'', List.mem_cons_of_mem r' hr'', hfit, rfl⟩)
        · exact Or.inr (Or.inr rfl)

/-- Placing a chunk keeps the first replica's first chunk, while no replica is empty. -/
theorem head_placeChunk {r : List AggrChunk} {rs : List (List AggrChunk)} (hr : r ≠ []) :
    (placeChunk c (r :: rs)).head?.bind List.head? = r.head? := by
  unfold placeChunk
  split
  · obtain ⟨x, xs, rfl⟩ := List.exists_cons_of_ne_nil hr
    rfl
  · rfl

end Place

/-- What the replicas built from the chunks `done` satisfy: together they are `done`, each
keeps the order of `done` and has no two overlapping consecutive chunks, none is empty,
and the first starts with the first chunk of `done`. -/
structure Partition (done : List AggrChunk) (rs : List (List AggrChunk)) : Prop where
  perm : rs.flatten.Perm done
  sublist : ∀ r ∈ rs, r.Sublist done
  chain : ∀ r ∈ rs, r.IsChain EndsBefore
  ne_nil : [] ∉ rs
  head : rs.head?.bind List.head? = done.head?

namespace Partition

variable {done : List AggrChunk} {rs : List (List AggrChunk)}

theorem single (c : AggrChunk) : Partition [c] [[c]] where
  perm := by simp
  sublist := by simp
  chain := by simp
  ne_nil := by simp
  head := rfl

/-- The chunks placed so far are there only if some replica is. -/
theorem eq_nil_of_nil (hp : Partition done []) : done = [] :=
  List.Perm.eq_nil hp.perm.symm

/-- The step of the chunks loop: placing the next chunk keeps the partition. -/
theorem placeChunk (hp : Partition done rs) (c : AggrChunk) :
    Partition (done ++ [c]) (placeChunk c rs) where
  perm := (flatten_placeChunk rs).trans (hp.perm.append_right [c])
  sublist := by
    intro r hr
    rcases mem_placeChunk hr with h | ⟨r', hr', _, rfl⟩ | rfl
    · exact (hp.sublist r h).trans (List.sublist_append_left done [c])
    · exact (hp.sublist r' hr').append (List.Sublist.refl [c])
    · exact List.singleton_sublist.mpr (List.mem_append_right done (List.mem_singleton_self c))
  chain := by
    intro r hr
    rcases mem_placeChunk hr with h | ⟨r', hr', hfit, rfl⟩ | rfl
    · exact hp.chain r h
    · refine (hp.chain r' hr').append (List.isChain_singleton c) ?_
      intro x hx y hy
      obtain rfl : c = y := by simpa using hy
      exact hfit x hx
    · exact List.isChain_singleton c
  ne_nil := by
    intro hmem
    rcases mem_placeChunk hmem with h | ⟨r', _, _, h⟩ | h
    · exact hp.ne_nil h
    · simp at h
    · simp at h
  head := by
    cases rs with
    | nil => simp [hp.eq_nil_of_nil, Thanos.Dedup.placeChunk]
    | cons r rs =>
      have hr : r ≠ [] := fun h => hp.ne_nil (h ▸ List.mem_cons_self)
      have hdone : done ≠ [] := by
        intro h
        have := hp.head
        simp only [h, List.head?_cons, Option.bind_some, List.head?_nil] at this
        exact hr (List.head?_eq_none_iff.mp this)
      rw [head_placeChunk hr, List.head?_append_of_ne_nil done hdone]
      simpa using hp.head

/-- The run of the chunks loop: every further chunk is placed, one step at a time. -/
theorem foldl (hp : Partition done rs) (cs : List AggrChunk) :
    Partition (done ++ cs) (cs.foldl (fun rs c => Thanos.Dedup.placeChunk c rs) rs) := by
  induction cs generalizing done rs with
  | nil => simpa using hp
  | cons c cs ih =>
    simpa using ih (hp.placeChunk c)

end Partition

theorem partition_splitChunks {c : AggrChunk} (cs : List AggrChunk) :
    Partition (c :: cs) (splitChunks (c :: cs)) :=
  (Partition.single c).foldl cs

/-- The series with two replicas of the package's test: the chunk starting at 0 and ending
at 30 overlaps the first one, and the chunk starting at 31 fits after it. -/
example :
    let ch : Int → Int → AggrChunk := fun a b =>
      ⟨a, b, none, none, none, none, none, none⟩
    splitChunks [ch 0 20, ch 0 30, ch 21 50, ch 31 60, ch 100 160] =
      [[ch 0 20, ch 21 50, ch 100 160], [ch 0 30, ch 31 60]] := by
  decide

theorem splitChunks_ne_nil (cs : List AggrChunk) : splitChunks cs ≠ [] := by
  cases cs with
  | nil => simp [splitChunks]
  | cons c cs =>
    intro h
    have := (partition_splitChunks (c := c) cs).perm
    rw [h] at this
    simpa using this.symm

/-- Chunks that already do not overlap all go to the first replica: each fits after the
one before it. -/
theorem foldl_placeChunk_of_isChain (p : List AggrChunk) (cs : List AggrChunk) (hp : p ≠ [])
    (hc : (p ++ cs).IsChain EndsBefore) :
    cs.foldl (fun rs c => placeChunk c rs) [p] = [p ++ cs] := by
  induction cs generalizing p with
  | nil => simp
  | cons c cs ih =>
    have hfit : Fits p c := fun l hl => (List.isChain_append.mp hc).2.2 l hl c (by simp)
    have hstep : placeChunk c [p] = [p ++ [c]] := by simp [placeChunk, hfit]
    rw [List.foldl_cons, hstep, ih (p ++ [c]) (by simp) (by simpa using hc)]
    simp

/-- A series whose chunks do not overlap is one entry, also when it has no chunks. -/
theorem splitChunks_of_isChain {cs : List AggrChunk} (hc : cs.IsChain EndsBefore) :
    splitChunks cs = [cs] := by
  cases cs with
  | nil => rfl
  | cons c cs => simpa [splitChunks] using foldl_placeChunk_of_isChain [c] cs (by simp) hc

/-- `overlapSplitSet`: the input as the series it still yields, and the labels and
replicas of the series being split with the cursor `currI` into them. -/
structure OverlapSplitSet (κ : Type) where
  ok : Bool
  set : List (κ × List AggrChunk)
  currLabels : κ
  currI : Nat
  replicas : List (List AggrChunk)

variable {κ : Type}

/-- `NewOverlapSplit`. -/
def newOverlapSplit [Inhabited κ] (set : List (κ × List AggrChunk)) : OverlapSplitSet κ :=
  { ok := true, set, currLabels := default, currI := 0, replicas := [] }

/-- The entries of a series set: every series' replicas, each with the series' labels. -/
def splitEntries (set : List (κ × List AggrChunk)) : List (κ × List AggrChunk) :=
  set.flatMap fun s => (splitChunks s.2).map fun r => (s.1, r)

theorem splitEntries_eq_nil_iff {set : List (κ × List AggrChunk)} :
    splitEntries set = [] ↔ set = [] := by
  cases set with
  | nil => simp [splitEntries]
  | cons s set => simp [splitEntries, splitChunks_ne_nil]

namespace OverlapSplitSet

/-- `overlapSplitSet.Next`: the next replica of the current series, else the replicas of
the next series of the input. -/
def next (o : OverlapSplitSet κ) : OverlapSplitSet κ × Bool :=
  if !o.ok then (o, false)
  else if o.currI + 1 < o.replicas.length then ({ o with currI := o.currI + 1 }, true)
  else match o.set with
    | [] => ({ o with ok := false, currI := 0, replicas := [[]] }, false)
    | (lset, chunks) :: rest =>
      ({ o with set := rest, currLabels := lset, currI := 0, replicas := splitChunks chunks }, true)

/-- `overlapSplitSet.At`; `none` where the index `o.replicas[o.currI]` is out of range. -/
def at' (o : OverlapSplitSet κ) : Option (κ × List AggrChunk) :=
  o.replicas[o.currI]?.map fun r => (o.currLabels, r)

/-- What `o` still yields: the replicas after the cursor, then the entries of the series
the input still yields. -/
def rest (o : OverlapSplitSet κ) : List (κ × List AggrChunk) :=
  if o.ok then (o.replicas.drop (o.currI + 1)).map (fun r => (o.currLabels, r)) ++ splitEntries o.set
  else []

/-- The entries a reader gets by calling `Next`, and `At` while it returns true, for at most
`fuel` calls of `Next`. -/
def entries : Nat → OverlapSplitSet κ → List (Option (κ × List AggrChunk))
  | 0, _ => []
  | fuel + 1, o => if o.next.2 then o.next.1.at' :: entries fuel o.next.1 else []

theorem rest_newOverlapSplit [Inhabited κ] (set : List (κ × List AggrChunk)) :
    (newOverlapSplit set).rest = splitEntries set := by
  simp [newOverlapSplit, rest]

/-- Once nothing is left, `Next` returns false and nothing is left after it. -/
theorem next_of_rest_eq_nil {o : OverlapSplitSet κ} (h : o.rest = []) :
    o.next.2 = false ∧ o.next.1.rest = [] := by
  cases hok : o.ok with
  | false => simp [next, rest, hok]
  | true =>
    simp only [rest, hok, if_true, List.append_eq_nil_iff, List.map_eq_nil_iff,
      List.drop_eq_nil_iff, splitEntries_eq_nil_iff] at h
    have hi : ¬ o.currI + 1 < o.replicas.length := by omega
    simp [next, rest, hok, hi, h.2]

/-- The step law: `Next` returns true, `At` gives the head of what is left and the tail is
left after it. -/
theorem next_of_rest_eq_cons {o : OverlapSplitSet κ} {e : κ × List AggrChunk}
    {es : List (κ × List AggrChunk)} (h : o.rest = e :: es) :
    o.next.2 = true ∧ o.next.1.at' = some e ∧ o.next.1.rest = es := by
  cases hok : o.ok with
  | false => simp [rest, hok] at h
  | true =>
    simp only [rest, hok, if_true] at h
    by_cases hi : o.currI + 1 < o.replicas.length
    · -- the next replica of the series being split
      rw [List.drop_eq_getElem_cons hi, List.map_cons, List.cons_append, List.cons.injEq] at h
      simp [next, at', rest, hok, hi, h.1, ← h.2]
    · -- the replicas of the next series of the input
      rw [List.drop_eq_nil_of_le (by omega), List.map_nil, List.nil_append] at h
      match hset : o.set with
      | [] => simp [hset, splitEntries] at h
      | (lset, chunks) :: set' =>
        obtain ⟨r, rs, hrs⟩ := List.exists_cons_of_ne_nil (splitChunks_ne_nil chunks)
        simp only [hset, splitEntries, List.flatMap_cons, hrs, List.map_cons,
          List.cons_append, List.cons.injEq] at h
        simp [next, at', rest, hok, hi, hset, hrs, ← h.1, ← h.2, splitEntries]

/-- The run law: the first `fuel` calls of `Next` and `At` give the first `fuel` entries
of what is left, and no more. -/
theorem entries_eq_take (fuel : Nat) (o : OverlapSplitSet κ) :
    o.entries fuel = (o.rest.take fuel).map some := by
  induction fuel generalizing o with
  | zero => simp [entries]
  | succ fuel ih =>
    match h : o.rest with
    | [] => simp [entries, (next_of_rest_eq_nil h).1]
    | e :: es =>
      obtain ⟨hnext, hat, hrest⟩ := next_of_rest_eq_cons h
      simp [entries, hnext, hat, ih o.next.1, hrest]

end OverlapSplitSet

theorem overlapSplit_partitions_chunks [Inhabited κ] (set : List (κ × List AggrChunk))
    (fuel : Nat) :
    (newOverlapSplit set).entries fuel =
        ((set.flatMap fun s => (splitChunks s.2).map fun r => (s.1, r)).take fuel).map some ∧
      ∀ s ∈ set, (splitChunks s.2).flatten.Perm s.2 ∧
        (∀ r ∈ splitChunks s.2, r.Sublist s.2 ∧ r.IsChain EndsBefore) ∧
        (splitChunks s.2).head?.bind List.head? = s.2.head? ∧
        (s.2.IsChain EndsBefore → splitChunks s.2 = [s.2]) := by
  refine ⟨?_, fun s _ => ?_⟩
  · rw [OverlapSplitSet.entries_eq_take, OverlapSplitSet.rest_newOverlapSplit]
    rfl
  · obtain ⟨lset, chunks⟩ := s
    cases chunks with
    | nil => simp [splitChunks]
    | cons c cs =>
      have hp := partition_splitChunks (c := c) cs
      exact ⟨hp.perm, fun r hr => ⟨hp.sublist r hr, hp.chain r hr⟩, hp.head,
        splitChunks_of_isChain⟩

end Thanos.Dedup
