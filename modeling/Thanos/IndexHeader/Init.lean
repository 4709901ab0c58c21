import Thanos.IndexHeader.Scan

/-! # What `init` keeps in memory

`BinaryReader.init` reads the postings offset table once and keeps, for each name,
some of its entries' positions. Whatever the sampling, for a name whose entries
are the segment `[b, b + m)` of a sorted table, what it keeps is `Samples`: the
first position, increasing positions, the last one, and where the last entry's
postings end. The proof follows the table in three parts: before the segment
nothing is kept for the name, along the segment the samples grow (`Building`), and
after it the name's offsets are closed once and never touched again. -/

namespace Thanos.IndexHeader

/-! ## The map of postings -/

section Postings

variable {ps : List (String × PostingValueOffsets)} {N c : String}

theorem getPostings_cons (p : String × PostingValueOffsets) (ps : List (String × PostingValueOffsets))
    (N : String) : getPostings (p :: ps) N = if p.1 = N then some p.2 else getPostings ps N := by
  obtain ⟨k, v⟩ := p
  by_cases h : k = N
  · subst h
    simp [getPostings]
  · have hb : (N == k) = false := by simpa using Ne.symm h
    simp [getPostings, List.lookup_cons, hb, h]

theorem getPostings_append_of_ne (h : c ≠ N) (x : PostingValueOffsets) :
    getPostings (ps ++ [(c, x)]) N = getPostings ps N := by
  induction ps with
  | nil =>
    rw [List.nil_append, getPostings_cons, if_neg h]
  | cons p ps ih => simp only [List.cons_append, getPostings_cons, ih]

theorem getPostings_append_of_none (h : getPostings ps N = none) (x : PostingValueOffsets) :
    getPostings (ps ++ [(N, x)]) N = some x := by
  induction ps with
  | nil => simp [getPostings_cons]
  | cons p ps ih =>
    rw [getPostings_cons] at h
    by_cases hp : p.1 = N
    · rw [if_pos hp] at h
      cases h
    · rw [if_neg hp] at h
      rw [List.cons_append, getPostings_cons, if_neg hp, ih h]

theorem getPostings_modifyPostings_of_ne (h : c ≠ N) (f : PostingValueOffsets → PostingValueOffsets) :
    getPostings (modifyPostings ps c f) N = getPostings ps N := by
  induction ps with
  | nil => rfl
  | cons p ps ih =>
    rw [modifyPostings, List.map_cons, ← modifyPostings, getPostings_cons, getPostings_cons, ih]
    by_cases hp : p.1 = c
    · have hpN : ¬ p.1 = N := hp ▸ h
      simp only [if_pos hp, hpN, if_false]
    · simp [hp]

theorem getPostings_modifyPostings_self (f : PostingValueOffsets → PostingValueOffsets) :
    getPostings (modifyPostings ps N f) N = (getPostings ps N).map f := by
  induction ps with
  | nil => rfl
  | cons p ps ih =>
    rw [modifyPostings, List.map_cons, ← modifyPostings, getPostings_cons, getPostings_cons]
    by_cases hp : p.1 = N
    · simp [hp]
    · simp [hp, ih]

/-- Closing the offsets of another name leaves those of `N` as they are. -/
theorem getPostings_close_of_ne (h : c ≠ N) (cond : Prop) [Decidable cond] (o : PostingOffset)
    (stop : Int) :
    getPostings (modifyPostings (if cond then modifyPostings ps c (appendOffset o) else ps) c
      fun e => { e with lastValOffset := stop }) N = getPostings ps N := by
  rw [getPostings_modifyPostings_of_ne h]
  split_ifs
  · exact getPostings_modifyPostings_of_ne h _
  · rfl

end Postings

/-! ## The run of `init` -/

section Run

variable (sampling : Nat)

theorem initLoop_append (st : InitState) (l₁ l₂ : List TableEntry) (pos : Nat) :
    initLoop sampling st (l₁ ++ l₂) pos =
      initLoop sampling (initLoop sampling st l₁ pos) l₂ (pos + l₁.length) := by
  induction l₁ generalizing st pos with
  | nil => rfl
  | cons ent l₁ ih =>
    rw [List.cons_append, initLoop, initLoop, ih, List.length_cons, Nat.add_assoc, Nat.add_comm 1]

/-- An entry of another name, after the offsets of `N` are closed, leaves them as
they are. -/
theorem initStep_frame {N : String} {st : InitState} {ent : TableEntry} (pos : Nat)
    (hname : ent.name ≠ N) (hlast : st.lastName ≠ some N) :
    getPostings (initStep sampling st ent pos).postings N = getPostings st.postings N ∧
      (initStep sampling st ent pos).lastName = some ent.name := by
  refine ⟨?_, rfl⟩
  simp only [initStep]
  cases hl : st.lastName with
  | none =>
    split_ifs <;> simp only [getPostings_modifyPostings_of_ne hname, getPostings_append_of_ne hname]
  | some c =>
    have hc : c ≠ N := fun h => hlast (h ▸ hl)
    split_ifs <;> simp only [getPostings_modifyPostings_of_ne hname, getPostings_modifyPostings_of_ne hc,
      getPostings_append_of_ne hname]

/-- A run over entries of other names, after the offsets of `N` are closed, leaves
them as they are. -/
theorem initLoop_frame {N : String} : ∀ (l : List TableEntry) (st : InitState) (pos : Nat),
    (∀ ent ∈ l, ent.name ≠ N) → st.lastName ≠ some N →
    getPostings (initLoop sampling st l pos).postings N = getPostings st.postings N ∧
      (initLoop sampling st l pos).lastName ≠ some N
  | [], _, _, _, hlast => ⟨rfl, hlast⟩
  | ent :: l, st, pos, hnames, hlast => by
    have hent := hnames ent List.mem_cons_self
    obtain ⟨hstep, hname⟩ := initStep_frame sampling pos hent hlast
    obtain ⟨hrun, hlast'⟩ := initLoop_frame l _ (pos + 1)
      (fun x hx => hnames x (List.mem_cons_of_mem _ hx)) (by rw [hname]; simpa using hent)
    exact ⟨hrun.trans hstep, hlast'⟩

end Run

/-! ## Along the segment of a name -/

section Sampled

variable {T : List TableEntry} {b j : Nat} {os : List PostingOffset}

theorem Sampled.single {ent : TableEntry} (hent : T[b]? = some ent) :
    Sampled T b 1 [⟨ent.value, b⟩] :=
  ⟨List.cons_ne_nil _ _, by simp, by simp, by simp, by simp [hent]⟩

theorem Sampled.grow (hs : Sampled T b j os) : Sampled T b (j + 1) os :=
  ⟨hs.ne, hs.first, hs.sorted, fun o ho => ⟨(hs.bound o ho).1, by have := (hs.bound o ho).2; omega⟩,
    hs.value⟩

/-- A sample pushed after every one there is keeps them `Sampled`. -/
theorem Sampled.push {j' q : Nat} {v : String} (hs : Sampled T b j os) (hlt : ∀ o ∈ os, o.tableOff < q)
    (hq : q < b + j') (hj : j ≤ j') (hv : (T[q]?).map TableEntry.value = some v) :
    Sampled T b j' (os ++ [⟨v, q⟩]) := by
  refine ⟨by simp, ?_, ?_, fun o ho => ?_, fun o ho => ?_⟩
  · obtain ⟨o₀, os', rfl⟩ := List.exists_cons_of_ne_nil hs.ne
    exact hs.first
  · rw [List.map_append, List.pairwise_append]
    refine ⟨hs.sorted, List.pairwise_singleton _ _, fun x hx y hy => ?_⟩
    obtain ⟨o, ho, rfl⟩ := List.mem_map.mp hx
    rw [List.map_singleton, List.mem_singleton] at hy
    exact hy ▸ hlt o ho
  · rcases List.mem_append.mp ho with ho | ho
    · exact ⟨(hs.bound o ho).1, by have := (hs.bound o ho).2; omega⟩
    · rw [List.mem_singleton.mp ho]
      obtain ⟨o₀, ho₀⟩ := List.exists_mem_of_ne_nil _ hs.ne
      have := (hs.bound o₀ ho₀).1
      have := hlt o₀ ho₀
      show b ≤ q ∧ q < b + j'
      exact ⟨by omega, hq⟩
  · rcases List.mem_append.mp ho with ho | ho
    · exact hs.value o ho
    · rw [List.mem_singleton.mp ho]
      exact hv

theorem Sampled.le_last {l : PostingOffset} (hs : Sampled T b j os) (hl : os.getLast? = some l) :
    ∀ o ∈ os, o.tableOff ≤ l.tableOff := by
  obtain ⟨ys, rfl⟩ := List.getLast?_eq_some_iff.mp hl
  have hsorted := hs.sorted
  rw [List.map_append, List.pairwise_append] at hsorted
  intro o ho
  rcases List.mem_append.mp ho with ho | ho
  · exact le_of_lt (hsorted.2.2 _ (List.mem_map_of_mem ho) _ (by simp))
  · rw [List.mem_singleton.mp ho]

end Sampled

/-- The state of `init` in the segment `[b, b + m)` of `N` after its first `j`
entries: the last entry read is `b + j - 1`, and the samples kept so far end with
it exactly when the count of values was last a multiple of the sampling. -/
structure Building (sampling : Nat) (T : List TableEntry) (b j : Nat) (N : String) (st : InitState) :
    Prop where
  pos : 0 < j
  lastName : st.lastName = some N
  lastValue : (T[b + j - 1]?).map TableEntry.value = some st.lastValue
  lastTableOff : st.lastTableOff = b + j - 1
  valueCount : st.valueCount = j
  offsets : ∃ e, getPostings st.postings N = some e ∧ Sampled T b j e.offsets ∧
    ∀ o ∈ e.offsets.getLast?, ((j - 1) % sampling = 0 ↔ o.tableOff = b + j - 1)

section Building

variable {sampling : Nat} {T : List TableEntry} {b : Nat} {N : String} {st : InitState}
  {ent : TableEntry}

/-- The first entry of `N` starts its samples. -/
theorem building_start (hnone : getPostings st.postings N = none) (hlast : st.lastName ≠ some N)
    (hent : T[b]? = some ent) (hname : ent.name = N) :
    Building sampling T b 1 N (initStep sampling st ent b) := by
  subst hname
  have hnew : (getPostings st.postings ent.name).isNone = true := by rw [hnone]; rfl
  simp only [initStep, hnew, if_true, Nat.zero_add, Nat.sub_self, Nat.zero_mod]
  refine ⟨Nat.one_pos, rfl, by simp [hent], rfl, rfl,
    ⟨⟨[⟨ent.value, b⟩], 0⟩, ?_, Sampled.single hent, by simp⟩⟩
  rw [getPostings_modifyPostings_self]
  -- the name is added after the offsets of the name before it are closed
  cases hl : st.lastName with
  | none =>
    rw [getPostings_append_of_none hnone]
    rfl
  | some c =>
    have hc : c ≠ ent.name := fun h => hlast (h ▸ hl)
    dsimp only
    rw [getPostings_close_of_ne hc, getPostings_append_of_none hnone]
    rfl

/-- Each further entry of `N` keeps `Building`, with one more entry read. -/
theorem Building.step {j : Nat} (hB : Building sampling T b j N st) (hent : T[b + j]? = some ent)
    (hname : ent.name = N) : Building sampling T b (j + 1) N (initStep sampling st ent (b + j)) := by
  obtain ⟨e, he, hs, hlast⟩ := hB.offsets
  have hold : (getPostings st.postings ent.name).isNone = false := by rw [hname, he]; rfl
  simp only [initStep, hold, Bool.false_eq_true, if_false, hB.valueCount, Nat.add_sub_cancel]
  refine ⟨Nat.succ_pos j, by rw [hname], by simp [hent], show b + j = b + (j + 1) - 1 by omega, rfl, ?_⟩
  by_cases hj : j % sampling = 0
  · rw [if_pos hj, hname, getPostings_modifyPostings_self, he]
    refine ⟨_, rfl, hs.push (fun o ho => by have := (hs.bound o ho).2; omega) (by omega) (by omega)
      (by simp [hent]), fun o ho => ?_⟩
    simp only [appendOffset, List.getLast?_append, List.getLast?_singleton, Option.some_or,
      Option.mem_def, Option.some.injEq] at ho
    subst ho
    simp [hj]
  · rw [if_neg hj]
    refine ⟨e, he, hs.grow, fun o ho => ?_⟩
    have := (hs.bound o (List.mem_of_getLast? ho)).2
    constructor
    · exact fun h => absurd h hj
    · intro h
      omega

/-- Closing the offsets of `N` after its last entry gives its `Samples`. -/
theorem Building.close {L : Int} {m : Nat} (hB : Building sampling T b m N st)
    {ps : List (String × PostingValueOffsets)} (hps : getPostings ps N = getPostings st.postings N)
    {stop : Int} (hstop : stop = (postingRange T L (b + m - 1)).stop) :
    ∃ e, getPostings (modifyPostings (if (st.valueCount - 1) % sampling ≠ 0 then
        modifyPostings ps N (appendOffset ⟨st.lastValue, st.lastTableOff⟩) else ps) N
        fun e => { e with lastValOffset := stop }) N = some e ∧ Samples T L b m e := by
  obtain ⟨e, he, hs, hlast⟩ := hB.offsets
  obtain ⟨l, hl⟩ := Option.ne_none_iff_exists'.mp (List.getLast?_eq_none_iff.not.mpr hs.ne)
  have hiff := hlast l hl
  rw [getPostings_modifyPostings_self, hB.valueCount]
  by_cases hc : (m - 1) % sampling = 0
  · -- the last entry is sampled already
    rw [if_neg (not_not_intro hc), hps, he]
    exact ⟨_, rfl, ⟨hs, fun o ho => by rw [Option.mem_def, hl] at ho; cases ho; exact hiff.mp hc,
      hstop⟩⟩
  · -- the last entry is added
    rw [if_pos hc, getPostings_modifyPostings_self, hps, he, hB.lastTableOff]
    have hl' : l.tableOff < b + m - 1 := by
      have := (hs.bound l (List.mem_of_getLast? hl)).2
      have := mt hiff.mpr hc
      omega
    refine ⟨_, rfl, ⟨hs.push (fun o ho => lt_of_le_of_lt (hs.le_last hl o ho) hl')
      (by have := hB.pos; omega) (le_refl _) hB.lastValue, by simp [appendOffset], hstop⟩⟩

/-- The first entry after the segment closes the offsets of `N`. -/
theorem Building.next {L : Int} {m : Nat} {q : TableEntry} (pos : Nat) (hB : Building sampling T b m N st)
    (hq : q.name ≠ N) (hnew : getPostings st.postings q.name = none)
    (hstop : q.offset - crc32Size = (postingRange T L (b + m - 1)).stop) :
    (∃ e, getPostings (initStep sampling st q pos).postings N = some e ∧ Samples T L b m e) ∧
      (initStep sampling st q pos).lastName = some q.name := by
  have hisNone : (getPostings st.postings q.name).isNone = true := by rw [hnew]; rfl
  refine ⟨?_, rfl⟩
  simp only [initStep, hisNone, if_true, hB.lastName, Nat.zero_add, Nat.sub_self, Nat.zero_mod]
  rw [getPostings_modifyPostings_of_ne hq]
  exact hB.close (getPostings_append_of_ne hq _) hstop

/-- The entries of the segment, read one after another, keep `Building`. -/
theorem building_run {pre seg post : List TableEntry} (hT : T = pre ++ seg ++ post)
    (hnames : ∀ ent ∈ seg, ent.name = N) :
    ∀ (rest : List TableEntry) (j : Nat) (st : InitState), Building sampling T pre.length j N st →
      seg.drop j = rest → j ≤ seg.length →
      Building sampling T pre.length seg.length N (initLoop sampling st rest (pre.length + j))
  | [], j, st, hB, hrest, hj => by
    have := List.drop_eq_nil_iff.mp hrest
    have hjm : j = seg.length := by omega
    subst hjm
    exact hB
  | ent :: rest, j, st, hB, hrest, _ => by
    have hseg : seg[j]? = some ent := by rw [← Nat.add_zero j, ← List.getElem?_drop, hrest]; rfl
    have hj : j < seg.length := (List.getElem?_eq_some_iff.mp hseg).1
    have hent : T[pre.length + j]? = some ent := by rw [getElem?_segment hT hj, hseg]
    exact building_run hT hnames rest (j + 1) _ (hB.step hent (hnames ent (List.mem_of_getElem? hseg)))
      (by rw [← List.tail_drop, hrest]; rfl) hj

end Building

/-! ## The whole table -/

section Table

variable {sampling : Nat} {T : List TableEntry} {N : String} {L : Int}

/-- Unless the table ends with `N`, closing the last name leaves `N` as it is. -/
theorem getPostings_initPostings_of_ne
    (h : (initLoop sampling ⟨[], none, "", 0, 0⟩ T 0).lastName ≠ some N) :
    getPostings (initPostings sampling T L) N = getPostings (initLoop sampling ⟨[], none, "", 0, 0⟩ T 0).postings N := by
  simp only [initPostings]
  cases hl : (initLoop sampling ⟨[], none, "", 0, 0⟩ T 0).lastName with
  | none => rfl
  | some c =>
    have hc : c ≠ N := fun h' => h (h' ▸ hl)
    dsimp only
    rw [getPostings_close_of_ne hc]

/-- What `init` keeps for a name of a sorted table is `Samples` of its segment. -/
theorem initPostings_samples {pre seg post : List TableEntry} (hT : T = pre ++ seg ++ post)
    (hseg : Segment N pre seg post) :
    ∃ e, getPostings (initPostings sampling T L) N = some e ∧ Samples T L pre.length seg.length e := by
  obtain ⟨hpre, hlast₁⟩ := initLoop_frame sampling pre ⟨[], none, "", 0, 0⟩ 0
    (fun ent h => ne_of_lt (hseg.pre_lt ent h)) (by simp)
  obtain ⟨x, seg', hxs⟩ := List.exists_cons_of_ne_nil hseg.ne
  have hx : T[pre.length]? = some x := by
    rw [← Nat.add_zero pre.length, getElem?_segment hT (by rw [hxs]; simp), hxs]
    rfl
  have hB₁ : Building sampling T pre.length 1 N _ := building_start hpre hlast₁ hx (hseg.seg_name x (by rw [hxs]; exact List.mem_cons_self))
  have hmid : initLoop sampling ⟨[], none, "", 0, 0⟩ (pre ++ seg) 0 =
      initLoop sampling (initStep sampling (initLoop sampling ⟨[], none, "", 0, 0⟩ pre 0) x pre.length) seg'
        (pre.length + 1) := by
    rw [initLoop_append, hxs, initLoop, Nat.zero_add]
  have hB : Building sampling T pre.length seg.length N (initLoop sampling ⟨[], none, "", 0, 0⟩ (pre ++ seg) 0) :=
    hmid ▸ building_run hT hseg.seg_name seg' 1 _ hB₁ (by rw [hxs]; rfl) (by rw [hxs]; simp)
  have hrun : initLoop sampling ⟨[], none, "", 0, 0⟩ T 0 =
      initLoop sampling (initLoop sampling ⟨[], none, "", 0, 0⟩ (pre ++ seg) 0) post (pre.length + seg.length) := by
    rw [hT, initLoop_append, List.length_append, Nat.zero_add]
  have hlen : T.length = pre.length + seg.length + post.length := length_table hT
  cases post with
  | nil =>
    -- the table ends with `N`: its postings end where the index's last posting does
    have hstop : L - crc32Size = (postingRange T L (pre.length + seg.length - 1)).stop := by
      have hnone : T[pre.length + seg.length - 1 + 1]? = none :=
        List.getElem?_eq_none_iff.mpr (by have := hB.pos; simp at hlen; omega)
      simp [postingRange, hnone]
    simp only [initPostings, hrun, initLoop, hB.lastName]
    exact hB.close rfl hstop
  | cons q post' =>
    have hq : T[pre.length + seg.length]? = some q := by
      rw [hT, List.append_assoc, List.getElem?_append_right (by simp), List.getElem?_append_right (by simp)]
      simp
    have hqN : N < q.name := hseg.post_gt q List.mem_cons_self
    obtain ⟨hnew, _⟩ := initLoop_frame sampling (N := q.name) (pre ++ seg) ⟨[], none, "", 0, 0⟩ 0
      (fun ent h => by
        rcases List.mem_append.mp h with h | h
        · exact ne_of_lt (lt_trans (hseg.pre_lt ent h) hqN)
        · rw [hseg.seg_name ent h]
          exact ne_of_lt hqN)
      (by simp)
    have hstop : q.offset - crc32Size = (postingRange T L (pre.length + seg.length - 1)).stop := by
      rw [postingRange_stop_of_next L (p := pre.length + seg.length - 1) (by have := hB.pos; rw [← hq]; congr 1; omega)]
    obtain ⟨⟨e, he, hS⟩, hname⟩ := hB.next (pre.length + seg.length) (Ne.symm (ne_of_lt hqN)) hnew hstop
    -- after it the offsets of `N` are not touched again
    obtain ⟨hpost, hlast⟩ := initLoop_frame sampling post' _ (pre.length + seg.length + 1)
      (fun ent h => Ne.symm (ne_of_lt (hseg.post_gt ent (List.mem_cons_of_mem _ h))))
      (by rw [hname]; simpa using Ne.symm (ne_of_lt hqN))
    refine ⟨e, ?_, hS⟩
    rw [getPostings_initPostings_of_ne (by rw [hrun, initLoop]; exact hlast), hrun, initLoop, hpost, he]

end Table

end Thanos.IndexHeader
