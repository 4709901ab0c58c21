import Thanos.IndexHeader.BinaryReader
import Mathlib.Data.String.Basic
import Mathlib.Data.List.TakeWhile

/-! # The full postings offset table

What the sampled lookup must agree with: the range the whole table gives for a
name and value, found by a linear search (`lookupRange`). In a table sorted by
name and value the entries of one name form a segment `seg` between the smaller
names `pre` and the larger ones `post` (`exists_segment`), and the lookup of a
value of that name only depends on the segment: it is the range of the entry of
that value there, or `NotFoundRange` when no entry of the segment has it. -/

namespace Thanos.IndexHeader

/-- The order of the postings offset table: by name, then by value. -/
def entryLt (a b : TableEntry) : Prop := a.name < b.name ∨ (a.name = b.name ∧ a.value < b.value)

instance (a b : TableEntry) : Decidable (entryLt a b) := inferInstanceAs (Decidable (_ ∨ _))

/-- The range the full table gives for the entry at position `k`. -/
def postingRange (table : List TableEntry) (indexLastPostingEnd : Int) (k : Nat) : Range :=
  let stop := match table[k + 1]? with
    | some next => next.offset
    | none => indexLastPostingEnd
  ⟨((table[k]?).map TableEntry.offset).getD 0 + postingLengthFieldSize, stop - crc32Size⟩

/-- A full table lookup: the range of the entry `(name, v)`, or `NotFoundRange`. -/
def lookupRange (table : List TableEntry) (indexLastPostingEnd : Int) (name v : String) : Range :=
  match table.findIdx? fun e => e.name = name ∧ e.value = v with
  | some k => postingRange table indexLastPostingEnd k
  | none => notFoundRange

/-- The entries of one name in a sorted table: everything before has a smaller
name, everything after a larger one, and values increase. -/
structure Segment (name : String) (pre seg post : List TableEntry) : Prop where
  ne : seg ≠ []
  pre_lt : ∀ e ∈ pre, e.name < name
  seg_name : ∀ e ∈ seg, e.name = name
  post_gt : ∀ e ∈ post, name < e.name
  sorted : (seg.map TableEntry.value).Pairwise (· < ·)

theorem name_le_of_entryLt {a b : TableEntry} (h : entryLt a b) : a.name ≤ b.name := by
  rcases h with h | ⟨h, _⟩
  · exact le_of_lt h
  · exact le_of_eq h

/-- In a sorted table, every name from the first one at or above `name` on is at or
above `name`. -/
theorem name_ge_of_dropWhile {l : List TableEntry} (hsorted : l.Pairwise entryLt) (name : String) :
    ∀ e ∈ l.dropWhile (fun e => decide (e.name < name)), name ≤ e.name := by
  induction l with
  | nil => simp
  | cons h t ih =>
    intro e he
    by_cases hh : h.name < name
    · rw [List.dropWhile_cons_of_pos (by simpa using hh)] at he
      exact ih hsorted.of_cons e he
    · rw [List.dropWhile_cons_of_neg (by simpa using hh)] at he
      rcases List.mem_cons.mp he with rfl | he
      · exact not_lt.mp hh
      · exact le_trans (not_lt.mp hh) (name_le_of_entryLt (List.rel_of_pairwise_cons hsorted he))

theorem exists_segment {table : List TableEntry} (hsorted : table.Pairwise entryLt)
    {name : String} (hname : ∃ e ∈ table, e.name = name) :
    ∃ pre seg post, table = pre ++ seg ++ post ∧ Segment name pre seg post := by
  set rest := table.dropWhile fun e => decide (e.name < name) with hrest
  have hge := name_ge_of_dropWhile hsorted name
  have hrs : rest.Pairwise entryLt := hsorted.sublist (List.dropWhile_sublist _)
  refine ⟨table.takeWhile fun e => decide (e.name < name), rest.takeWhile fun e => decide (e.name = name),
    rest.dropWhile fun e => decide (e.name = name), ?_, ⟨?_, ?_, ?_, ?_, ?_⟩⟩
  · rw [List.append_assoc, List.takeWhile_append_dropWhile, List.takeWhile_append_dropWhile]
  · obtain ⟨e, he, hen⟩ := hname
    have herest : e ∈ rest := by
      rw [← List.takeWhile_append_dropWhile (p := fun e => decide (e.name < name)) (l := table)] at he
      rcases List.mem_append.mp he with he | he
      · have := List.mem_takeWhile_imp he
        simp [hen] at this
      · exact he
    cases hr : rest with
    | nil => rw [hr] at herest; cases herest
    | cons h t =>
      have hh : h.name = name := by
        apply le_antisymm _ (hge h (by rw [← hrest, hr]; exact List.mem_cons_self))
        rw [hr] at herest hrs
        rcases List.mem_cons.mp herest with rfl | het
        · exact le_of_eq hen
        · exact hen ▸ name_le_of_entryLt (List.rel_of_pairwise_cons hrs het)
      simp [hh]
  · intro e he
    simpa using List.mem_takeWhile_imp he
  · intro e he
    simpa using List.mem_takeWhile_imp he
  · intro e he
    cases hp : rest.dropWhile (fun e => decide (e.name = name)) with
    | nil => rw [hp] at he; cases he
    | cons h t =>
      have hmem : ∀ x ∈ h :: t, x ∈ rest := fun x hx => (List.dropWhile_sublist _).subset (hp ▸ hx)
      have hh : name < h.name := by
        have hne : ¬ h.name = name := by
          have := List.head_dropWhile_not (fun e : TableEntry => decide (e.name = name))
            (l := rest) (by simp [hp])
          simpa [hp] using this
        exact lt_of_le_of_ne (hge h (hmem h List.mem_cons_self)) (Ne.symm hne)
      have hps : (h :: t).Pairwise entryLt := hrs.sublist (hp ▸ List.dropWhile_sublist _)
      rw [hp] at he
      rcases List.mem_cons.mp he with rfl | het
      · exact hh
      · exact lt_of_lt_of_le hh (name_le_of_entryLt (List.rel_of_pairwise_cons hps het))
  · have hseg : (rest.takeWhile fun e => decide (e.name = name)).Pairwise entryLt :=
      hrs.sublist (List.takeWhile_sublist _)
    rw [List.pairwise_map]
    refine hseg.imp_of_mem fun ha hb hab => ?_
    have hna := List.mem_takeWhile_imp ha
    have hnb := List.mem_takeWhile_imp hb
    simp only [decide_eq_true_eq] at hna hnb
    rcases hab with hab | ⟨_, hab⟩
    · rw [hna, hnb] at hab
      exact absurd hab (lt_irrefl _)
    · exact hab

section Segment

variable {T : List TableEntry} {N : String} {pre seg post : List TableEntry}
  (hT : T = pre ++ seg ++ post)
include hT

theorem getElem?_segment {k : Nat} (hk : k < seg.length) : T[pre.length + k]? = seg[k]? := by
  rw [hT, List.append_assoc, List.getElem?_append_right (by omega), Nat.add_sub_cancel_left,
    List.getElem?_append_left hk]

theorem length_table : T.length = pre.length + seg.length + post.length := by
  simp [hT, Nat.add_assoc]

theorem exists_entry_of_mem {p : Nat} (hp : pre.length ≤ p) (hp' : p < pre.length + seg.length) :
    ∃ ent ∈ seg, T[p]? = some ent := by
  obtain ⟨k, rfl⟩ := Nat.exists_eq_add_of_le hp
  rw [getElem?_segment hT (by omega)]
  exact ⟨seg[k], List.getElem_mem _, List.getElem?_eq_getElem _⟩

theorem exists_pos_of_mem_seg {ent : TableEntry} (h : ent ∈ seg) :
    ∃ p, pre.length ≤ p ∧ p < pre.length + seg.length ∧ T[p]? = some ent := by
  obtain ⟨k, hk, rfl⟩ := List.getElem_of_mem h
  exact ⟨pre.length + k, by omega, by omega, by rw [getElem?_segment hT hk, List.getElem?_eq_getElem hk]⟩

variable (hseg : Segment N pre seg post)
include hseg

/-- Values increase along the segment. -/
theorem value_lt_of_lt {p q : Nat} {x y : TableEntry} (hp : pre.length ≤ p) (hpq : p < q)
    (hq : q < pre.length + seg.length) (hx : T[p]? = some x) (hy : T[q]? = some y) :
    x.value < y.value := by
  obtain ⟨j, rfl⟩ := Nat.exists_eq_add_of_le hp
  obtain ⟨k, rfl⟩ := Nat.exists_eq_add_of_le (le_of_lt (lt_of_le_of_lt hp hpq))
  rw [getElem?_segment hT (by omega), List.getElem?_eq_getElem (by omega)] at hx hy
  cases hx
  cases hy
  have := List.pairwise_iff_getElem.mp hseg.sorted j k (by simp; omega) (by simp; omega) (by omega)
  simpa using this

theorem value_le_of_le {p q : Nat} {x y : TableEntry} (hp : pre.length ≤ p) (hpq : p ≤ q)
    (hq : q < pre.length + seg.length) (hx : T[p]? = some x) (hy : T[q]? = some y) :
    x.value ≤ y.value := by
  rcases Nat.lt_or_eq_of_le hpq with hpq | rfl
  · exact le_of_lt (value_lt_of_lt hT hseg hp hpq hq hx hy)
  · rw [hx] at hy
    cases hy
    exact le_refl _

end Segment

section Lookup

variable {T : List TableEntry} {N : String} {pre seg post : List TableEntry}
  (hT : T = pre ++ seg ++ post) (hseg : Segment N pre seg post) (L : Int)
include hT hseg

/-- A value of the segment is found at its entry. -/
theorem lookupRange_of_entry {p : Nat} {ent : TableEntry} (hp : pre.length ≤ p)
    (hp' : p < pre.length + seg.length) (hent : T[p]? = some ent) :
    lookupRange T L N ent.value = postingRange T L p := by
  obtain ⟨k, rfl⟩ := Nat.exists_eq_add_of_le hp
  have hk : k < seg.length := by omega
  rw [getElem?_segment hT hk, List.getElem?_eq_getElem hk] at hent
  cases hent
  have hpre : pre.findIdx? (fun e => decide (e.name = N ∧ e.value = seg[k].value)) = none :=
    List.findIdx?_eq_none_iff.mpr fun e he => by
      simp [ne_of_lt (hseg.pre_lt e he)]
  have hsg : seg.findIdx? (fun e => decide (e.name = N ∧ e.value = seg[k].value)) = some k := by
    rw [List.findIdx?_eq_some_iff_getElem]
    refine ⟨hk, by simp [hseg.seg_name _ (List.getElem_mem hk)], fun j hj => ?_⟩
    have := List.pairwise_iff_getElem.mp hseg.sorted j k (by simp; omega) (by simp; omega) hj
    simp only [List.getElem_map] at this
    simp [ne_of_lt this]
  unfold lookupRange
  rw [hT, List.append_assoc, List.findIdx?_append, List.findIdx?_append, hpre, hsg]
  simp [Nat.add_comm]

/-- A value that no entry of the segment has is not found. -/
theorem lookupRange_of_not_mem {v : String} (hv : ∀ ent ∈ seg, ent.value ≠ v) :
    lookupRange T L N v = notFoundRange := by
  have hnone : T.findIdx? (fun e => decide (e.name = N ∧ e.value = v)) = none := by
    rw [List.findIdx?_eq_none_iff]
    intro e he
    rw [hT] at he
    simp only [List.mem_append] at he
    rcases he with (he | he) | he
    · simp [ne_of_lt (hseg.pre_lt e he)]
    · simp [hv e he]
    · simp [ne_of_gt (hseg.post_gt e he)]
  unfold lookupRange
  rw [hnone]

/-- A wanted value above every entry before `pos` and below the entry at `pos` is
not in the table. -/
theorem lookupRange_of_gap {pos : Nat} {w x : String} {ent : TableEntry}
    (hpos : T[pos]? = some ent) (hle : pre.length ≤ pos)
    (hbelow : ∀ p ent', pre.length ≤ p → p < pos → T[p]? = some ent' → ent'.value < w)
    (hwx : w ≤ x) (hx : x < ent.value) : lookupRange T L N x = notFoundRange := by
  apply lookupRange_of_not_mem hT hseg L
  intro ent' hmem heq
  obtain ⟨p, hp1, hp2, hp⟩ := exists_pos_of_mem_seg hT hmem
  rcases lt_or_ge p pos with hlt | hge
  · exact absurd (heq ▸ hbelow p ent' hp1 hlt hp) (not_lt.mpr hwx)
  · exact absurd (heq ▸ value_le_of_le hT hseg hle hge hp2 hpos hp) (not_le.mpr hx)

end Lookup

end Thanos.IndexHeader
