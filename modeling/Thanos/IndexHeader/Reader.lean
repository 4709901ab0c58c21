import Thanos.IndexHeader.Init

/-! # The reader after `init` agrees with the full table

For a table sorted by name and value and any sampling, the reader that
`BinaryReader.init` builds answers `postingsOffset` for a name in the table and
any sorted wanted values as the full table does, and `LabelValues` gives the
values of the name in the table's order: the samples it keeps are `Samples`
(`initPostings_samples`), and on `Samples` both lookups are exact
(`postingsOffset_spec`, `labelValues_spec`). -/

namespace Thanos.IndexHeader

section LabelValues

variable {T : List TableEntry} {N : String} {pre seg post : List TableEntry}
  (hT : T = pre ++ seg ++ post) (hseg : Segment N pre seg post)
include hT hseg

/-- The loop of `LabelValues` reads the segment on from position `k` up to the
entry whose value is the last one, which is the segment's last entry. -/
theorem labelValuesLoop_spec {lastVal : String}
    (hlast : (T[pre.length + seg.length - 1]?).map TableEntry.value = some lastVal) :
    ∀ (fuel k : Nat) (acc : List String), k < seg.length → seg.length - k ≤ fuel →
      labelValuesLoop T lastVal fuel (pre.length + k) acc =
        .ok (acc ++ (seg.drop k).map TableEntry.value) := by
  intro fuel
  induction fuel with
  | zero =>
    intro k acc hk hfuel
    omega
  | succ f ih =>
    intro k acc hk hfuel
    have hent : T[pre.length + k]? = some seg[k] := by
      rw [getElem?_segment hT hk, List.getElem?_eq_getElem hk]
    obtain ⟨y, hy, hyv⟩ : ∃ y, T[pre.length + seg.length - 1]? = some y ∧ y.value = lastVal := by
      cases h : T[pre.length + seg.length - 1]? with
      | none => rw [h] at hlast; cases hlast
      | some y => rw [h] at hlast; exact ⟨y, rfl, by simpa using hlast⟩
    rw [labelValuesLoop]
    simp only [readEntry, hent, bind, Except.bind]
    rw [List.drop_eq_getElem_cons hk, List.map_cons]
    by_cases hv : seg[k].value = lastVal
    · -- only the last entry has the last value
      have hkm : k = seg.length - 1 := by
        by_contra hne
        have := value_lt_of_lt hT hseg (Nat.le_add_right _ k) (by omega) (by omega) hent hy
        rw [hyv, hv] at this
        exact lt_irrefl _ this
      have hdrop : seg.drop (k + 1) = [] := List.drop_eq_nil_iff.mpr (by omega)
      rw [if_pos hv, hdrop, List.map_nil]
    · have hk1 : k + 1 < seg.length := by
        by_contra hge
        have hkm : pre.length + k = pre.length + seg.length - 1 := by omega
        rw [hkm, hy] at hent
        cases hent
        exact hv hyv
      rw [if_neg hv, Nat.add_assoc, ih (k + 1) _ hk1 (by omega), List.append_assoc, List.singleton_append]

/-- The values of `N` in the table are those of its segment. -/
theorem filter_name_eq_seg : (T.filter fun ent => ent.name = N) = seg := by
  rw [hT, List.filter_append, List.filter_append, List.filter_eq_nil_iff.mpr, List.filter_eq_self.mpr,
    List.filter_eq_nil_iff.mpr, List.nil_append, List.append_nil]
  · intro ent h
    simpa using Ne.symm (ne_of_lt (hseg.post_gt ent h))
  · intro ent h
    simpa using hseg.seg_name ent h
  · intro ent h
    simpa using ne_of_lt (hseg.pre_lt ent h)

/-- `LabelValues` on a name whose samples are `e` gives the values of its segment. -/
theorem labelValues_spec {L : Int} {e : PostingValueOffsets} (hS : Samples T L pre.length seg.length e)
    {r : BinaryReader} (hr : r.table = T) (hget : getPostings r.postings N = some e) :
    r.labelValues N = .ok (seg.map TableEntry.value) := by
  obtain ⟨first, hfirst⟩ := Option.ne_none_iff_exists'.mp (List.head?_eq_none_iff.not.mpr hS.ne)
  obtain ⟨last, hlast⟩ := Option.ne_none_iff_exists'.mp (List.getLast?_eq_none_iff.not.mpr hS.ne)
  have hv := hS.value last (List.mem_of_getLast? hlast)
  rw [hS.last last hlast] at hv
  have hm : 0 < seg.length := List.length_pos_of_ne_nil hseg.ne
  have hlen : T.length = pre.length + seg.length + post.length := length_table hT
  simp only [BinaryReader.labelValues, hget, hfirst, hlast, hr]
  rw [hS.first first hfirst, ← Nat.add_zero pre.length,
    labelValuesLoop_spec hT hseg hv _ 0 [] hm (by omega), List.nil_append, List.drop_zero]

end LabelValues

/-- The sampled lookups of the reader that `init` builds agree with the full table:
`postingsOffset` gives, for each sorted wanted value, the range of its entry or
`NotFoundRange`, and `LabelValues` the name's values in order. -/
theorem postingsOffset_init_agrees (table : List TableEntry) (indexLastPostingEnd : Int)
    (sampling : Nat) (hsorted : table.Pairwise entryLt) (name : String)
    (hname : ∃ ent ∈ table, ent.name = name) (values : List String)
    (hvalues : values.Pairwise (· ≤ ·)) :
    (BinaryReader.init table indexLastPostingEnd sampling).postingsOffset name values =
        .ok (values.map (lookupRange table indexLastPostingEnd name)) ∧
      (BinaryReader.init table indexLastPostingEnd sampling).labelValues name =
        .ok ((table.filter fun ent => ent.name = name).map TableEntry.value) := by
  obtain ⟨pre, seg, post, hT, hseg⟩ := exists_segment hsorted hname
  obtain ⟨e, he, hS⟩ : ∃ e, getPostings (initPostings sampling table indexLastPostingEnd) name = some e ∧
      Samples table indexLastPostingEnd pre.length seg.length e := initPostings_samples hT hseg
  refine ⟨postingsOffset_spec hT hseg hS rfl he hvalues, ?_⟩
  rw [filter_name_eq_seg hT hseg]
  exact labelValues_spec hT hseg hS rfl he

theorem postingsOffset_init_agrees_sampling_two :
    let table : List TableEntry :=
      [⟨"a", "1", 0⟩, ⟨"b", "1", 10⟩, ⟨"b", "3", 20⟩, ⟨"b", "5", 30⟩, ⟨"c", "x", 40⟩]
    (BinaryReader.init table 50 2).postingsOffset "b" ["0", "3", "3", "4", "5", "9"] =
        .ok (["0", "3", "3", "4", "5", "9"].map (lookupRange table 50 "b")) ∧
      (BinaryReader.init table 50 2).labelValues "b" =
        .ok ((table.filter fun ent => ent.name = "b").map TableEntry.value) :=
  postingsOffset_init_agrees _ 50 2 (by decide +kernel) "b" (by decide +kernel) _ (by decide +kernel)

end Thanos.IndexHeader
