import Thanos.IndexHeader.FullTable

/-! # The scan of `postingsOffset`

`postingsOffset` answers its sorted wanted values in runs: a binary search over
the in-memory samples of the name picks the sample to start from, and the loop
`Iter` reads the table from there, entry by entry. At each entry the inner loop
answers the wanted values below the entry as not found and opens a range for
those equal to it, whose end is only known once the next entry is read; it
breaks off for a new binary search when it would leave the samples
`offsets[i, i+1)` with nothing open.

`innerLoop_spec` says what one entry does, `iterLoop_spec` what a scan does from
any position where `Scanning` holds, and `searchLoop'_spec` that the outer loop
answers every wanted value as the full table does. -/

namespace Thanos.IndexHeader

section Inner

variable (value : String) (postingOffset : Int) (next : Option String)

/-- The range a match at this entry starts, before its end is known. -/
def openRange (postingOffset : Int) : Range := ⟨postingOffset + postingLengthFieldSize, 0⟩

-- The lemmas below unfold `innerLoop` side by side; its equation lemmas are made
-- here, once, rather than by each of them.
section
attribute [local simp] innerLoop
end

theorem innerLoop_nil (rngs newSame : List Range) :
    innerLoop value postingOffset next [] rngs newSame = .done [] rngs newSame := by
  simp [innerLoop]

theorem innerLoop_lt {w : String} (h : value < w) (ws : List String) (rngs newSame : List Range) :
    innerLoop value postingOffset next (w :: ws) rngs newSame = .done (w :: ws) rngs newSame := by
  simp [innerLoop, not_le.mpr h]

theorem innerLoop_match_nil (rngs newSame : List Range) :
    innerLoop value postingOffset next [value] rngs newSame =
      .done [] rngs (newSame ++ [openRange postingOffset]) := by
  simp [innerLoop, openRange]

/-- A match is never followed by `break Iter`. -/
theorem innerLoop_match_cons (w' : String) (ws : List String) (rngs newSame : List Range) :
    innerLoop value postingOffset next (value :: w' :: ws) rngs newSame =
      innerLoop value postingOffset next (w' :: ws) rngs (newSame ++ [openRange postingOffset]) := by
  conv_lhs => unfold innerLoop
  cases next <;> simp [openRange]

theorem innerLoop_miss_nil {w : String} (h : w < value) (rngs newSame : List Range) :
    innerLoop value postingOffset next [w] rngs newSame =
      .done [] (rngs ++ [notFoundRange]) newSame := by
  simp [innerLoop, le_of_lt h, (ne_of_lt h).symm]

theorem innerLoop_miss_cons_none {w : String} (h : w < value) (w' : String) (ws : List String)
    (rngs newSame : List Range) :
    innerLoop value postingOffset none (w :: w' :: ws) rngs newSame =
      innerLoop value postingOffset none (w' :: ws) (rngs ++ [notFoundRange]) newSame := by
  conv_lhs => unfold innerLoop
  simp [le_of_lt h, (ne_of_lt h).symm]

theorem innerLoop_miss_cons_some {w : String} (h : w < value) (w' : String) (ws : List String)
    (nextValue : String) (rngs newSame : List Range) :
    innerLoop value postingOffset (some nextValue) (w :: w' :: ws) rngs newSame =
      if newSame = [] ∧ w' ≥ nextValue then .breakIter (w' :: ws) (rngs ++ [notFoundRange]) newSame
      else innerLoop value postingOffset (some nextValue) (w' :: ws) (rngs ++ [notFoundRange]) newSame := by
  conv_lhs => unfold innerLoop
  simp [le_of_lt h, (ne_of_lt h).symm]

/-- After a match, the loop takes the values equal to the entry and stops at the
first larger one. -/
theorem innerLoop_of_matched (ws : List String) :
    ∀ (rngs newSame : List Range), newSame ≠ [] → (∀ w ∈ ws, value ≤ w) →
    innerLoop value postingOffset next ws rngs newSame =
      .done (ws.dropWhile fun w => decide (w = value)) rngs
        (newSame ++ (ws.takeWhile fun w => decide (w = value)).map fun _ => openRange postingOffset) := by
  induction ws with
  | nil => intro rngs newSame _ _; simp [innerLoop_nil]
  | cons w ws ih =>
    intro rngs newSame hne hge
    have hw := hge w List.mem_cons_self
    by_cases hwv : w = value
    · subst hwv
      cases ws with
      | nil => simp [innerLoop_match_nil]
      | cons w' ws' =>
        rw [innerLoop_match_cons, ih _ _ (by simp) fun x hx => hge x (List.mem_cons_of_mem _ hx)]
        simp
    · rw [innerLoop_lt _ _ _ (lt_of_le_of_ne hw (Ne.symm hwv))]
      simp [hwv]

/-- The values below the entry, those equal to it, and the rest. -/
def missed (ws : List String) : List String := ws.takeWhile fun w => decide (w < value)
def matched (ws : List String) : List String :=
  (ws.dropWhile fun w => decide (w < value)).takeWhile fun w => decide (w = value)
def after (ws : List String) : List String :=
  (ws.dropWhile fun w => decide (w < value)).dropWhile fun w => decide (w = value)

section
attribute [local simp] missed matched after
end

theorem missed_append_matched_append_after (ws : List String) :
    missed value ws ++ matched value ws ++ after value ws = ws := by
  simp only [missed, matched, after, List.append_assoc, List.takeWhile_append_dropWhile]

section Cons
variable {value} {w : String} (ws : List String)

theorem missed_cons_of_lt (h : w < value) : missed value (w :: ws) = w :: missed value ws := by
  unfold missed
  rw [List.takeWhile_cons_of_pos (p := fun x => decide (x < value)) (decide_eq_true h)]

theorem matched_cons_of_lt (h : w < value) : matched value (w :: ws) = matched value ws := by
  unfold matched
  rw [List.dropWhile_cons_of_pos (p := fun x => decide (x < value)) (decide_eq_true h)]

theorem after_cons_of_lt (h : w < value) : after value (w :: ws) = after value ws := by
  unfold after
  rw [List.dropWhile_cons_of_pos (p := fun x => decide (x < value)) (decide_eq_true h)]

theorem missed_cons_of_le (h : value ≤ w) : missed value (w :: ws) = [] := by
  unfold missed
  rw [List.takeWhile_cons_of_neg (p := fun x => decide (x < value))
    fun h' => not_lt.mpr h (of_decide_eq_true h')]

theorem matched_cons_of_lt' (h : value < w) : matched value (w :: ws) = [] := by
  unfold matched
  rw [List.dropWhile_cons_of_neg (p := fun x => decide (x < value))
      fun h' => not_lt.mpr (le_of_lt h) (of_decide_eq_true h'),
    List.takeWhile_cons_of_neg (p := fun x => decide (x = value))
      fun h' => ne_of_gt h (of_decide_eq_true h')]

theorem after_cons_of_lt' (h : value < w) : after value (w :: ws) = w :: ws := by
  unfold after
  rw [List.dropWhile_cons_of_neg (p := fun x => decide (x < value))
      fun h' => not_lt.mpr (le_of_lt h) (of_decide_eq_true h'),
    List.dropWhile_cons_of_neg (p := fun x => decide (x = value))
      fun h' => ne_of_gt h (of_decide_eq_true h')]

theorem matched_cons_self :
    matched value (value :: ws) = value :: ws.takeWhile fun x => decide (x = value) := by
  unfold matched
  rw [List.dropWhile_cons_of_neg (p := fun x => decide (x < value))
      fun h' => lt_irrefl value (of_decide_eq_true h'),
    List.takeWhile_cons_of_pos (p := fun x => decide (x = value)) (decide_eq_true rfl)]

theorem after_cons_self :
    after value (value :: ws) = ws.dropWhile fun x => decide (x = value) := by
  unfold after
  rw [List.dropWhile_cons_of_neg (p := fun x => decide (x < value))
      fun h' => lt_irrefl value (of_decide_eq_true h'),
    List.dropWhile_cons_of_pos (p := fun x => decide (x = value)) (decide_eq_true rfl)]

end Cons

/-- What the loop does at one entry: it answers a nonempty run of wanted values
below the entry as not found and breaks off for a new binary search, or it answers
the values below the entry as not found, opens a range for those equal to it, and
stops at the first larger one; it breaks off only while it has not matched. -/
def InnerSpec (ws : List String) (rngs : List Range) : Prop :=
  (∃ P rest, ws = P ++ rest ∧ P ≠ [] ∧ (∀ w ∈ P, w < value) ∧
      innerLoop value postingOffset next ws rngs [] =
        .breakIter rest (rngs ++ P.map fun _ => notFoundRange) []) ∨
    (innerLoop value postingOffset next ws rngs [] =
        .done (after value ws) (rngs ++ (missed value ws).map fun _ => notFoundRange)
          ((matched value ws).map fun _ => openRange postingOffset) ∧
      ∀ nv, next = some nv → missed value ws ≠ [] → matched value ws ≠ [] → value < nv)

theorem innerSpec_cons_of_lt {w : String} (hlt : w < value) (ws : List String) (rngs : List Range)
    (heq : innerLoop value postingOffset next (w :: ws) rngs [] =
      innerLoop value postingOffset next ws (rngs ++ [notFoundRange]) [])
    (hnext : ∀ nv, next = some nv → ∀ x ∈ ws.head?, x < nv)
    (ih : InnerSpec value postingOffset next ws (rngs ++ [notFoundRange])) :
    InnerSpec value postingOffset next (w :: ws) rngs := by
  rcases ih with ⟨P, rest, hP, hPne, hPlt, hb⟩ | ⟨hd, hnv⟩
  · refine Or.inl ⟨w :: P, rest, by rw [hP, List.cons_append], by simp, ?_, ?_⟩
    · intro x hx
      rcases List.mem_cons.mp hx with rfl | hx
      · exact hlt
      · exact hPlt x hx
    · rw [heq, hb]
      simp
  · refine Or.inr ⟨?_, fun nv hn _ hq => ?_⟩
    · rw [heq, hd, missed_cons_of_lt _ hlt, matched_cons_of_lt _ hlt, after_cons_of_lt _ hlt]
      simp
    · rw [matched_cons_of_lt _ hlt] at hq
      by_cases hm : missed value ws = []
      · -- the first wanted value after `w` is matched
        have hsplit := missed_append_matched_append_after value ws
        rw [hm, List.nil_append] at hsplit
        obtain ⟨x, xs, hx⟩ := List.exists_cons_of_ne_nil hq
        have hxv : x = value := by
          have := List.mem_takeWhile_imp (hx ▸ List.mem_cons_self : x ∈ matched value ws)
          simpa using this
        have hhead : ws.head? = some x := by rw [← hsplit, hx]; rfl
        rw [← hxv]
        exact hnext nv hn x hhead
      · exact hnv nv hn hm hq

theorem innerLoop_spec (ws : List String) (hs : ws.Pairwise (· ≤ ·)) (rngs : List Range) :
    InnerSpec value postingOffset next ws rngs := by
  induction ws generalizing rngs with
  | nil => exact Or.inr ⟨by simp [innerLoop_nil, missed, matched, after], by simp [missed]⟩
  | cons w ws ih =>
    have hge : ∀ x ∈ ws, w ≤ x := fun x hx => List.rel_of_pairwise_cons hs hx
    rcases lt_trichotomy w value with hlt | rfl | hgt
    · cases ws with
      | nil =>
        refine Or.inr ⟨?_, fun nv _ _ hq => absurd (by rw [matched_cons_of_lt _ hlt]; rfl) hq⟩
        rw [innerLoop_miss_nil _ _ _ hlt, missed_cons_of_lt _ hlt, matched_cons_of_lt _ hlt,
          after_cons_of_lt _ hlt]
        simp [missed, matched, after]
      | cons w' ws' =>
        cases next with
        | none =>
          exact innerSpec_cons_of_lt _ _ _ hlt _ _ (innerLoop_miss_cons_none _ _ hlt _ _ _ _)
            (by simp) (ih hs.of_cons _)
        | some nv =>
          by_cases hbr : w' ≥ nv
          · refine Or.inl ⟨[w], w' :: ws', rfl, by simp, by simpa using hlt, ?_⟩
            rw [innerLoop_miss_cons_some _ _ hlt]
            simp [hbr]
          · exact innerSpec_cons_of_lt _ _ _ hlt _ _
              (by rw [innerLoop_miss_cons_some _ _ hlt]; simp [hbr])
              (by simpa using not_le.mp hbr) (ih hs.of_cons _)
    · -- the first wanted value is matched, and no break follows a match
      refine Or.inr ⟨?_, fun nv _ hm => absurd (missed_cons_of_le _ (le_refl w)) hm⟩
      rw [missed_cons_of_le _ (le_refl w), matched_cons_self, after_cons_self]
      cases ws with
      | nil => simp [innerLoop_match_nil]
      | cons w' ws' =>
        rw [innerLoop_match_cons, innerLoop_of_matched _ _ _ _ _ _ (by simp) hge]
        simp
    · refine Or.inr ⟨?_, fun nv _ hm => absurd (missed_cons_of_le _ (le_of_lt hgt)) hm⟩
      rw [innerLoop_lt _ _ _ hgt, missed_cons_of_le _ (le_of_lt hgt), matched_cons_of_lt' _ hgt,
        after_cons_of_lt' _ hgt]
      simp

theorem lt_of_mem_missed {ws : List String} {x : String} (hx : x ∈ missed value ws) : x < value := by
  simpa using List.mem_takeWhile_imp hx

theorem eq_of_mem_matched {ws : List String} {x : String} (hx : x ∈ matched value ws) : x = value := by
  simpa using List.mem_takeWhile_imp hx

/-- What is left after the values equal to `value`, in a sorted list whose
elements are at least `value`, is above `value`. -/
theorem lt_of_mem_dropWhile_eq {l : List String} (hs : l.Pairwise (· ≤ ·)) (hge : ∀ y ∈ l, value ≤ y) :
    ∀ x ∈ l.dropWhile (fun w => decide (w = value)), value < x := by
  induction l with
  | nil => simp
  | cons y l ih =>
    by_cases hy : y = value
    · rw [List.dropWhile_cons_of_pos (p := fun w => decide (w = value)) (decide_eq_true hy)]
      exact ih hs.of_cons fun z hz => hge z (List.mem_cons_of_mem _ hz)
    · rw [List.dropWhile_cons_of_neg (p := fun w => decide (w = value))
        fun h' => hy (of_decide_eq_true h')]
      have hyv : value < y := lt_of_le_of_ne (hge y List.mem_cons_self) (Ne.symm hy)
      intro x hx
      rcases List.mem_cons.mp hx with rfl | hx
      · exact hyv
      · exact lt_of_lt_of_le hyv (List.rel_of_pairwise_cons hs hx)

theorem lt_of_mem_after {ws : List String} (hs : ws.Pairwise (· ≤ ·)) :
    ∀ x ∈ after value ws, value < x := by
  induction ws with
  | nil => simp [after]
  | cons w ws ih =>
    rcases lt_trichotomy w value with hlt | rfl | hgt
    · rw [after_cons_of_lt _ hlt]
      exact ih hs.of_cons
    · rw [after_cons_self]
      exact lt_of_mem_dropWhile_eq w hs.of_cons fun y hy => List.rel_of_pairwise_cons hs hy
    · rw [after_cons_of_lt' _ hgt]
      intro x hx
      rcases List.mem_cons.mp hx with rfl | hx
      · exact hgt
      · exact lt_of_lt_of_le hgt (List.rel_of_pairwise_cons hs hx)

theorem after_sublist (ws : List String) : List.Sublist (after value ws) ws :=
  (List.dropWhile_sublist _).trans (List.dropWhile_sublist _)

/-- A wanted value at or below the entry is answered there. -/
theorem missed_append_matched_ne_nil {w : String} {ws : List String} (hw : w ≤ value) :
    missed value (w :: ws) ++ matched value (w :: ws) ≠ [] := by
  rcases lt_or_eq_of_le hw with hlt | rfl
  · simp [missed_cons_of_lt _ hlt]
  · simp [matched_cons_self]

end Inner

/-- Offsets that sample the positions `[b, b + j)` of a segment: increasing, from
the first one on, each with its entry's value. -/
structure Sampled (T : List TableEntry) (b j : Nat) (os : List PostingOffset) : Prop where
  ne : os ≠ []
  first : ∀ o ∈ os.head?, o.tableOff = b
  sorted : (os.map PostingOffset.tableOff).Pairwise (· < ·)
  bound : ∀ o ∈ os, b ≤ o.tableOff ∧ o.tableOff < b + j
  value : ∀ o ∈ os, (T[o.tableOff]?).map TableEntry.value = some o.value

/-- The in-memory offsets of one name whose segment is `[b, b + m)`: they sample
it up to its last entry, and `lastValOffset` is where that entry's postings end. -/
structure Samples (T : List TableEntry) (L : Int) (b m : Nat) (e : PostingValueOffsets) : Prop
    extends Sampled T b m e.offsets where
  last : ∀ o ∈ e.offsets.getLast?, o.tableOff = b + m - 1
  lastValOffset : e.lastValOffset = (postingRange T L (b + m - 1)).stop

section Samples

variable {T : List TableEntry} {L : Int} {b m : Nat} {e : PostingValueOffsets}
  (hS : Samples T L b m e)
include hS

theorem Samples.tableOff_lt {i j : Nat} {o o' : PostingOffset} (hi : e.offsets[i]? = some o)
    (hj : e.offsets[j]? = some o') (hij : i < j) : o.tableOff < o'.tableOff := by
  obtain ⟨hi', rfl⟩ := List.getElem?_eq_some_iff.mp hi
  obtain ⟨hj', rfl⟩ := List.getElem?_eq_some_iff.mp hj
  have := List.pairwise_iff_getElem.mp hS.sorted i j (by simpa using hi') (by simpa using hj') hij
  simpa using this

theorem Samples.entry_value {o : PostingOffset} (ho : o ∈ e.offsets) :
    ∃ x, T[o.tableOff]? = some x ∧ x.value = o.value := by
  have := hS.value o ho
  cases hx : T[o.tableOff]? with
  | none => rw [hx] at this; cases this
  | some x => rw [hx] at this; exact ⟨x, rfl, by simpa using this⟩

theorem Samples.last_of_succ_none {i : Nat} {o : PostingOffset} (hi : e.offsets[i]? = some o)
    (hn : e.offsets[i + 1]? = none) : o.tableOff = b + m - 1 := by
  apply hS.last o
  have hlen : e.offsets.length = i + 1 := by
    have h1 := (List.getElem?_eq_some_iff.mp hi).1
    have h2 := List.getElem?_eq_none_iff.mp hn
    omega
  rw [List.getLast?_eq_getElem?, hlen]
  simpa using hi

end Samples

/-- Where the scan of the table stands: at position `pos` of the segment, within
the samples `i` and `i + 1`, with the next wanted value `w` above every entry
before `pos`. If `offsets[i]` is the last sample and still ahead, `w` is its value:
the scan came here by `i++` and goes on to it. -/
structure Scanning (T : List TableEntry) (b m : Nat) (S : List PostingOffset) (pos i : Nat)
    (w : String) : Prop where
  i_lt : i < S.length
  le_pos : b ≤ pos
  pos_lt : pos < b + m
  below : ∀ p ent, b ≤ p → p < pos → T[p]? = some ent → ent.value < w
  upper : ∀ o, S[i + 1]? = some o → w ≤ o.value ∧ pos ≤ o.tableOff ∧ (pos = o.tableOff → w < o.value)
  atLast : S[i + 1]? = none → ∀ o, S[i]? = some o → pos < o.tableOff → w = o.value

/-- A scan that has answered nothing yet since its binary search. -/
structure Fresh (S : List PostingOffset) (pos i : Nat) (w : String) : Prop where
  upper : ∀ o, S[i + 1]? = some o → w < o.value
  atLast : S[i + 1]? = none → ∀ o, S[i]? = some o → pos = o.tableOff ∧ w ≤ o.value

theorem setEnd_nil (stop : Int) : setEnd stop [] = [] := rfl

theorem setEnd_openRange (stop off : Int) (xs : List String) :
    setEnd stop (xs.map fun _ => openRange off) = xs.map fun _ => ⟨off + postingLengthFieldSize, stop⟩ := by
  simp [setEnd, openRange]

theorem postingRange_of_entry {T : List TableEntry} (L : Int) {p : Nat} {ent : TableEntry}
    (hp : T[p]? = some ent) :
    postingRange T L p = ⟨ent.offset + postingLengthFieldSize, (postingRange T L p).stop⟩ := by
  simp [postingRange, hp]

theorem postingRange_stop_of_next {T : List TableEntry} (L : Int) {p : Nat} {ent : TableEntry}
    (hp : T[p + 1]? = some ent) : (postingRange T L p).stop = ent.offset - crc32Size := by
  simp [postingRange, hp]

theorem ite_setEnd (stop : Int) (rngs newSame : List Range) :
    (if newSame ≠ [] then rngs ++ setEnd stop newSame else rngs) = rngs ++ setEnd stop newSame := by
  split_ifs with h
  · rfl
  · rw [not_not.mp h, setEnd_nil, List.append_nil]

theorem closeSame_eq {T : List TableEntry} {pos : Nat} {ws : List String} {rngs newSame X : List Range}
    (hnil : newSame = [] → rngs = X)
    (hread : newSame ≠ [] → ∃ ent', T[pos + 1]? = some ent' ∧
      rngs ++ setEnd (ent'.offset - crc32Size) newSame = X) :
    closeSame T pos ws rngs newSame = .ok (ws, X) := by
  by_cases h : newSame = []
  · rw [closeSame, if_neg (not_not_intro h), hnil h]
  · obtain ⟨ent', hent', hX⟩ := hread h
    simp only [closeSame, if_pos h, bind, Except.bind, readEntry, hent', hX]

section Scan

open Go.Sort

variable {T : List TableEntry} {N : String} {pre seg post : List TableEntry}
  (hT : T = pre ++ seg ++ post) (hseg : Segment N pre seg post) {L : Int} {e : PostingValueOffsets}
  (hS : Samples T L pre.length seg.length e)
include hT hseg hS

theorem Samples.value_lt {i j : Nat} {o o' : PostingOffset} (hi : e.offsets[i]? = some o)
    (hj : e.offsets[j]? = some o') (hij : i < j) : o.value < o'.value := by
  obtain ⟨x, hx, hxv⟩ := hS.entry_value (List.mem_of_getElem? hi)
  obtain ⟨y, hy, hyv⟩ := hS.entry_value (List.mem_of_getElem? hj)
  rw [← hxv, ← hyv]
  exact value_lt_of_lt hT hseg (hS.bound o (List.mem_of_getElem? hi)).1 (hS.tableOff_lt hi hj hij)
    (hS.bound o' (List.mem_of_getElem? hj)).2 hx hy

/-- The step to the next entry keeps `Scanning`: the next wanted value `w'` is
above the entry just read and not above the next sample, which becomes the lower
one when `w'` is its value. -/
theorem Scanning.next {pos i : Nat} {w w' : String} {ent : TableEntry} {o' : PostingOffset}
    (hscan : Scanning T pre.length seg.length e.offsets pos i w) (hent : T[pos]? = some ent)
    (hlt : ent.value < w') (hww : w ≤ w') (hnext : e.offsets[i + 1]? = some o') (hle : w' ≤ o'.value) :
    Scanning T pre.length seg.length e.offsets (pos + 1) (if w' = o'.value then i + 1 else i) w' := by
  obtain ⟨x, hx, hxv⟩ := hS.entry_value (List.mem_of_getElem? hnext)
  have hbound := hS.bound o' (List.mem_of_getElem? hnext)
  obtain ⟨hwo, hpos, _⟩ := hscan.upper o' hnext
  have hle_pos := hscan.le_pos
  -- the entry just read is not the next sample: its value is below `w'`
  have hpos' : pos < o'.tableOff := by
    rcases Nat.lt_or_eq_of_le hpos with h | h
    · exact h
    · rw [← h, hent] at hx
      cases hx
      exact absurd (lt_of_lt_of_le hlt hle) (by rw [hxv]; exact lt_irrefl _)
  have hbelow : ∀ p ent', pre.length ≤ p → p < pos + 1 → T[p]? = some ent' → ent'.value < w' := by
    intro p ent' hp1 hp2 hp
    rcases Nat.lt_or_eq_of_le (Nat.le_of_lt_succ hp2) with h | rfl
    · exact lt_of_lt_of_le (hscan.below p ent' hp1 h hp) hww
    · rw [hent] at hp
      cases hp
      exact hlt
  have hi1 : i + 1 < e.offsets.length := (List.getElem?_eq_some_iff.mp hnext).1
  by_cases heq : w' = o'.value
  · rw [if_pos heq]
    refine ⟨hi1, by omega, by omega, hbelow, fun o'' ho'' => ?_, fun _ o ho h => ?_⟩
    · have hv := hS.value_lt hT hseg hnext ho'' (by omega)
      have ht := hS.tableOff_lt hnext ho'' (by omega)
      exact ⟨le_of_lt (heq ▸ hv), by omega, fun h => absurd h (by omega)⟩
    · rw [hnext] at ho
      cases ho
      exact heq
  · rw [if_neg heq]
    refine ⟨hscan.i_lt, by omega, by omega, hbelow, fun o'' ho'' => ?_, fun hn => ?_⟩
    · rw [hnext] at ho''
      cases ho''
      exact ⟨hle, by omega, fun _ => lt_of_le_of_ne hle heq⟩
    · rw [hnext] at hn
      cases hn

/-- The scan of the table from a position answers a run of the wanted values,
each with its full table lookup; from a fresh start it answers at least one. -/
theorem iterLoop_spec : ∀ (fuel pos i : Nat) (ws : List String) (rngs newSame : List Range)
    (done : List String) (w : String) (ws0 : List String),
    ws = w :: ws0 → T.length + 1 ≤ fuel + pos → ws.Pairwise (· ≤ ·) →
    Scanning T pre.length seg.length e.offsets pos i w →
    (∀ ent, T[pos]? = some ent →
      rngs ++ setEnd (ent.offset - crc32Size) newSame = done.map (lookupRange T L N)) →
    ∃ ws₁ ws', ws = ws₁ ++ ws' ∧
      iterLoop T e fuel pos i ws rngs newSame = .ok (ws', (done ++ ws₁).map (lookupRange T L N)) ∧
      (newSame = [] → Fresh e.offsets pos i w → ws₁ ≠ []) := by
  intro fuel
  induction fuel with
  | zero =>
    intro pos i ws rngs newSame done w ws0 _ hfuel _ hscan _
    have := length_table hT
    have := hscan.pos_lt
    omega
  | succ f ih =>
    intro pos i ws rngs newSame done w ws0 hws hfuel hsorted hscan hdone
    obtain ⟨ent, _, hent⟩ := exists_entry_of_mem hT hscan.le_pos hscan.pos_lt
    have hr₁ := hdone ent hent
    have hw : ∀ x ∈ ws, w ≤ x := by
      rw [hws]
      intro x hx
      rcases List.mem_cons.mp hx with rfl | hx
      · exact le_refl _
      · exact List.rel_of_pairwise_cons (hws ▸ hsorted) hx
    have hmiss : ∀ x ∈ ws, x < ent.value → lookupRange T L N x = notFoundRange := fun x hx hlt =>
      lookupRange_of_gap hT hseg L hent hscan.le_pos hscan.below (hw x hx) hlt
    have hmatch : ∀ x, x = ent.value → lookupRange T L N x = postingRange T L pos := by
      rintro x rfl
      exact lookupRange_of_entry hT hseg L hscan.le_pos hscan.pos_lt hent
    rw [iterLoop]
    simp only [readEntry, hent, bind, Except.bind, ite_setEnd]
    rcases innerLoop_spec ent.value ent.offset ((e.offsets[i + 1]?).map PostingOffset.value) ws
      hsorted (rngs ++ setEnd (ent.offset - crc32Size) newSame) with
      ⟨P, rest, hP, hPne, hPlt, hb⟩ | ⟨hd, hnv⟩
    · refine ⟨P, rest, hP, ?_, fun _ _ => hPne⟩
      have hPmap : P.map (fun _ => notFoundRange) = P.map (lookupRange T L N) :=
        (List.map_congr_left fun x hx => hmiss x (hP ▸ List.mem_append_left _ hx) (hPlt x hx)).symm
      rw [hb, hr₁, List.map_append, hPmap]
    · rw [hd]
      have hsplit := missed_append_matched_append_after ent.value ws
      have hMspec : (missed ent.value ws).map (fun _ => notFoundRange) =
          (missed ent.value ws).map (lookupRange T L N) :=
        (List.map_congr_left fun x hx => hmiss x (hsplit ▸ List.mem_append_left _
          (List.mem_append_left _ hx)) (lt_of_mem_missed _ hx)).symm
      have hQspec : ∀ stop, stop = (postingRange T L pos).stop →
          setEnd stop ((matched ent.value ws).map fun _ => openRange ent.offset) =
            (matched ent.value ws).map (lookupRange T L N) := by
        rintro stop rfl
        rw [setEnd_openRange]
        refine List.map_congr_left fun x hx => ?_
        rw [hmatch x (eq_of_mem_matched _ hx), postingRange_of_entry L hent]
      have hQle : matched ent.value ws ≠ [] → w ≤ ent.value := by
        intro hQ
        obtain ⟨x, hx⟩ := List.exists_mem_of_ne_nil _ hQ
        exact eq_of_mem_matched _ hx ▸ hw x (hsplit ▸ List.mem_append_left _ (List.mem_append_right _ hx))
      have hAsorted : (after ent.value ws).Pairwise (· ≤ ·) := hsorted.sublist (after_sublist _ ws)
      -- the ranges opened here end at the next entry, if one is read
      have hstep : ∀ ent', T[pos + 1]? = some ent' →
          rngs ++ setEnd (ent.offset - crc32Size) newSame ++
              (missed ent.value ws).map (fun _ => notFoundRange) ++
            setEnd (ent'.offset - crc32Size) ((matched ent.value ws).map fun _ => openRange ent.offset) =
          (done ++ (missed ent.value ws ++ matched ent.value ws)).map (lookupRange T L N) := by
        intro ent' hent'
        rw [hr₁, hMspec, hQspec _ (postingRange_stop_of_next L hent').symm]
        simp only [List.map_append, List.append_assoc]
      cases hnext : e.offsets[i + 1]? with
      | none =>
        simp only [Option.map_none]
        obtain ⟨o, ho⟩ : ∃ o, e.offsets[i]? = some o := ⟨_, List.getElem?_eq_getElem hscan.i_lt⟩
        obtain ⟨x, hx, hxv⟩ := hS.entry_value (List.mem_of_getElem? ho)
        have hend : setEnd e.lastValOffset ((matched ent.value ws).map fun _ => openRange ent.offset) =
            (matched ent.value ws).map (lookupRange T L N) := by
          by_cases hQ : matched ent.value ws = []
          · rw [hQ]
            rfl
          · -- a value matched before the last sample would lie below the wanted ones
            have hpos : pos = pre.length + seg.length - 1 := by
              have hlast := hS.last_of_succ_none ho hnext
              by_contra hne
              have hlt : pos < o.tableOff := by
                have := hscan.pos_lt
                omega
              have hv := value_lt_of_lt hT hseg hscan.le_pos hlt (by omega) hent hx
              rw [hxv, ← hscan.atLast hnext o ho hlt] at hv
              exact absurd (hQle hQ) (not_le.mpr hv)
            exact hQspec _ (by rw [hS.lastValOffset, hpos])
        refine ⟨missed ent.value ws ++ matched ent.value ws, after ent.value ws,
          hsplit.symm, ?_, fun _ hfr => ?_⟩
        · rw [hend, hr₁, hMspec]
          simp only [List.map_append, List.append_assoc]
        · obtain ⟨hpo, hwo⟩ := hfr.atLast hnext o ho
          rw [← hpo, hent] at hx
          cases hx
          rw [hws]
          exact missed_append_matched_ne_nil _ (hxv ▸ hwo)
      | some o' =>
        simp only [Option.map_some]
        -- a range opened here is not at the next sample, so the next entry exists
        have hread : matched ent.value ws ≠ [] → pos + 1 < pre.length + seg.length := by
          intro hQ
          have hbound := hS.bound o' (List.mem_of_getElem? hnext)
          obtain ⟨_, hpo, hlt⟩ := hscan.upper o' hnext
          suffices pos ≠ o'.tableOff by omega
          intro h
          obtain ⟨x, hx, hxv⟩ := hS.entry_value (List.mem_of_getElem? hnext)
          rw [← h, hent] at hx
          cases hx
          have hM : missed ent.value ws ≠ [] := by
            rw [hws, missed_cons_of_lt _ (hxv ▸ hlt h)]
            exact List.cons_ne_nil _ _
          exact absurd (hnv o'.value (by rw [hnext]; rfl) hM hQ) (by rw [hxv]; exact lt_irrefl _)
        have hclose : ∀ ws', closeSame T pos ws'
            (rngs ++ setEnd (ent.offset - crc32Size) newSame ++
              (missed ent.value ws).map fun _ => notFoundRange)
            ((matched ent.value ws).map fun _ => openRange ent.offset) =
            .ok (ws', (done ++ (missed ent.value ws ++ matched ent.value ws)).map (lookupRange T L N)) := by
          intro ws'
          apply closeSame_eq
          · intro hQ
            rw [List.map_eq_nil_iff.mp hQ, hr₁, hMspec]
            simp
          · intro hQ
            have hQ' : matched ent.value ws ≠ [] := fun h => hQ (by rw [h]; rfl)
            obtain ⟨ent', _, hent'⟩ := exists_entry_of_mem hT (by have := hscan.le_pos; omega) (hread hQ')
            exact ⟨ent', hent', hstep ent' hent'⟩
        -- nothing answered here leaves the wanted values as they were
        have hfresh_of : missed ent.value ws ++ matched ent.value ws = [] → after ent.value ws = ws := by
          intro h
          have h' := hsplit
          rw [h, List.nil_append] at h'
          exact h'
        rcases hA : after ent.value ws with _ | ⟨w'', A'⟩
        · refine ⟨missed ent.value ws ++ matched ent.value ws, [],
            by rw [← hA, hsplit], hclose [], fun _ _ h => ?_⟩
          rw [hfresh_of h, hws] at hA
          exact List.cons_ne_nil _ _ hA
        · by_cases hle : w'' ≤ o'.value
          · -- the scan goes on at the next entry
            have hmem : w'' ∈ after ent.value ws := hA ▸ List.mem_cons_self
            have hscan' := Scanning.next hT hseg hS hscan hent (lt_of_mem_after _ hsorted w'' hmem)
              (hw w'' ((after_sublist _ ws).subset hmem)) hnext hle
            obtain ⟨ws₁, ws', hA', hiter, hfresh⟩ := ih (pos + 1) _ (w'' :: A') _ _
              (done ++ (missed ent.value ws ++ matched ent.value ws)) w'' A' rfl (by omega)
              (hA ▸ hAsorted) hscan' hstep
            refine ⟨missed ent.value ws ++ matched ent.value ws ++ ws₁, ws',
              by rw [List.append_assoc _ ws₁, ← hA', ← hA, hsplit], ?_, fun _ hfr => ?_⟩
            · simp only [if_pos hle]
              rw [hiter, List.append_assoc]
            · by_cases hMQ : missed ent.value ws ++ matched ent.value ws = []
              · have hw'' : w'' = w := by
                  have h := hfresh_of hMQ
                  rw [hA, hws] at h
                  cases h
                  rfl
                have hwo := hfr.upper o' hnext
                have hQ : matched ent.value ws = [] := (List.append_eq_nil_iff.mp hMQ).2
                rw [if_neg (hw'' ▸ ne_of_lt hwo)] at hfresh
                rw [hMQ, List.nil_append]
                exact hfresh (by rw [hQ]; rfl)
                  ⟨fun o ho => hw'' ▸ hfr.upper o ho, fun hn => absurd hn (by rw [hnext]; simp)⟩
              · exact fun h => hMQ (List.append_eq_nil_iff.mp h).1
          · refine ⟨missed ent.value ws ++ matched ent.value ws, w'' :: A',
              by rw [← hA, hsplit], ?_, fun _ hfr h => ?_⟩
            · simp only [if_neg hle]
              exact hclose _
            · -- a fresh scan stops only once it has answered something
              have h' := hfresh_of h
              rw [hA, hws] at h'
              cases h'
              exact hle (le_of_lt (hfr.upper o' hnext))

/-- What the binary search for `w` over the samples finds: those before it are
below `w`, the one it stops at is not. -/
theorem search_samples (w : String) :
    (∀ k < search e.offsets.length (fun j => match e.offsets[j]? with
        | some o => decide (o.value ≥ w)
        | none => true), ∀ o, e.offsets[k]? = some o → o.value < w) ∧
    (∀ o, e.offsets[search e.offsets.length (fun j => match e.offsets[j]? with
        | some o => decide (o.value ≥ w)
        | none => true)]? = some o → w ≤ o.value) := by
  have hmono : ∀ a c, a ≤ c → c < e.offsets.length →
      (match e.offsets[a]? with | some o => decide (o.value ≥ w) | none => true) = true →
      (match e.offsets[c]? with | some o => decide (o.value ≥ w) | none => true) = true := by
    intro a c hac hc ha
    rw [List.getElem?_eq_getElem hc]
    rw [List.getElem?_eq_getElem (lt_of_le_of_lt hac hc)] at ha
    rcases Nat.lt_or_eq_of_le hac with hlt | rfl
    · have hv := hS.value_lt hT hseg (List.getElem?_eq_getElem (lt_of_le_of_lt hac hc))
        (List.getElem?_eq_getElem hc) hlt
      simp only [ge_iff_le, decide_eq_true_eq] at ha ⊢
      exact le_of_lt (lt_of_le_of_lt ha hv)
    · exact ha
  obtain ⟨_, hbelow, hat⟩ := search_spec hmono
  refine ⟨fun k hk o ho => ?_, fun o ho => ?_⟩
  · have := hbelow k hk
    rw [ho] at this
    simpa using this
  · have hlt := (List.getElem?_eq_some_iff.mp ho).1
    have := hat hlt
    rw [ho] at this
    simpa using this

/-- Entries of the segment before a sample are below its value. -/
theorem Samples.value_lt_of_lt_tableOff {o : PostingOffset} {p : Nat} {x : TableEntry}
    (ho : o ∈ e.offsets) (hp : pre.length ≤ p) (hpo : p < o.tableOff) (hx : T[p]? = some x) :
    x.value < o.value := by
  obtain ⟨y, hy, hyv⟩ := hS.entry_value ho
  rw [← hyv]
  exact value_lt_of_lt hT hseg hp hpo (hS.bound o ho).2 hx hy

/-- A value above every sample is above the whole segment. -/
theorem lookupRange_of_above_samples {w x : String} (habove : ∀ o ∈ e.offsets, o.value < w)
    (hwx : w ≤ x) : lookupRange T L N x = notFoundRange := by
  apply lookupRange_of_not_mem hT hseg L
  intro ent hent heq
  obtain ⟨p, hp1, hp2, hp⟩ := exists_pos_of_mem_seg hT hent
  obtain ⟨oL, hoL⟩ := Option.ne_none_iff_exists'.mp (List.getLast?_eq_none_iff.not.mpr hS.ne)
  have hmem := List.mem_of_getLast? hoL
  obtain ⟨y, hy, hyv⟩ := hS.entry_value hmem
  rw [hS.last oL hoL] at hy
  have hle := value_le_of_le hT hseg hp1 (Nat.le_sub_one_of_lt hp2) (by have := hp1; omega) hp hy
  rw [heq, hyv] at hle
  exact absurd (lt_of_le_of_lt hle (habove oL hmem)) (not_lt.mpr hwx)

/-- The binary search for `w` starts the scan at the sample it stops at, or at the
one before when that is not `w`: there the scan is `Scanning` and `Fresh`. -/
theorem scan_start {w : String} {i : Nat} {o : PostingOffset}
    (hbelow : ∀ k < i, ∀ o, e.offsets[k]? = some o → o.value < w)
    (hat : w ≤ o.value) (hi : e.offsets[i]? = some o) :
    ∃ o', e.offsets[if i > 0 ∧ o.value ≠ w then i - 1 else i]? = some o' ∧
      Scanning T pre.length seg.length e.offsets o'.tableOff
        (if i > 0 ∧ o.value ≠ w then i - 1 else i) w ∧
      Fresh e.offsets o'.tableOff (if i > 0 ∧ o.value ≠ w then i - 1 else i) w := by
  have hmem := List.mem_of_getElem? hi
  by_cases hc : i > 0 ∧ o.value ≠ w
  · -- the scan starts at the sample before, below `w`
    rw [if_pos hc]
    have hi' := (List.getElem?_eq_some_iff.mp hi).1
    have ho₀ := List.getElem?_eq_getElem (l := e.offsets) (i := i - 1) (by omega)
    have hmem₀ := List.mem_of_getElem? ho₀
    have hlt := hbelow (i - 1) (by omega) _ ho₀
    have hsucc : e.offsets[i - 1 + 1]? = some o := by rw [Nat.sub_add_cancel hc.1]; exact hi
    have hwo : w < o.value := lt_of_le_of_ne hat (Ne.symm hc.2)
    have hoff := hS.tableOff_lt ho₀ hsucc (by omega)
    refine ⟨_, ho₀, ⟨by omega, (hS.bound _ hmem₀).1, (hS.bound _ hmem₀).2, ?_, ?_, ?_⟩, ?_, ?_⟩
    · exact fun p x hp hpo hx => lt_trans (hS.value_lt_of_lt_tableOff hT hseg hmem₀ hp hpo hx) hlt
    · intro o'' ho''
      rw [hsucc] at ho''
      cases ho''
      exact ⟨hat, le_of_lt hoff, fun _ => hwo⟩
    · intro hn
      rw [hsucc] at hn
      cases hn
    · intro o'' ho''
      rw [hsucc] at ho''
      cases ho''
      exact hwo
    · intro hn
      rw [hsucc] at hn
      cases hn
  · -- the scan starts at the sample found: the first one, or `w` itself
    rw [if_neg hc]
    have hnext : ∀ o'', e.offsets[i + 1]? = some o'' → o.value < o''.value ∧ o.tableOff < o''.tableOff :=
      fun o'' ho'' => ⟨hS.value_lt hT hseg hi ho'' (Nat.lt_succ_self i),
        hS.tableOff_lt hi ho'' (Nat.lt_succ_self i)⟩
    refine ⟨o, hi, ⟨(List.getElem?_eq_some_iff.mp hi).1, (hS.bound o hmem).1, (hS.bound o hmem).2,
      fun p x hp hpo hx => ?_, fun o'' ho'' => ?_, fun _ o'' ho'' h => ?_⟩, ?_, ?_⟩
    · rcases Nat.eq_zero_or_pos i with h0 | hpos
      · subst h0
        have := hS.first o (by rw [List.head?_eq_getElem?]; exact hi)
        omega
      · have hw : o.value = w := by
          by_contra hne
          exact hc ⟨hpos, hne⟩
        exact hw ▸ hS.value_lt_of_lt_tableOff hT hseg hmem hp hpo hx
    · obtain ⟨hv, ht⟩ := hnext o'' ho''
      exact ⟨le_of_lt (lt_of_le_of_lt hat hv), le_of_lt ht, fun h => absurd h (ne_of_lt ht)⟩
    · rw [hi] at ho''
      cases ho''
      exact absurd h (lt_irrefl _)
    · exact fun o'' ho'' => lt_of_le_of_lt hat (hnext o'' ho'').1
    · intro _ o'' ho''
      rw [hi] at ho''
      cases ho''
      exact ⟨rfl, hat⟩

/-- The outer loop answers the wanted values left as the full table does, given
fuel for one binary search per wanted value. -/
theorem searchLoop'_spec (total : Nat) : ∀ (fuel : Nat) (ws done : List String),
    ws.Pairwise (· ≤ ·) → ws.length ≤ fuel → done.length + ws.length = total →
    searchLoop' T e total fuel ws (done.map (lookupRange T L N)) =
      .ok ((done ++ ws).map (lookupRange T L N)) := by
  intro fuel
  induction fuel with
  | zero =>
    intro ws done _ hlen _
    rw [List.length_eq_zero_iff.mp (Nat.le_zero.mp hlen), searchLoop', List.append_nil]
  | succ f ih =>
    intro ws done hsorted hlen htotal
    cases ws with
    | nil =>
      rw [searchLoop', List.append_nil]
      exact Nat.succ_ne_zero f
    | cons w ws =>
      have hw : ∀ x ∈ w :: ws, w ≤ x := by
        intro x hx
        rcases List.mem_cons.mp hx with rfl | hx
        · exact le_refl _
        · exact List.rel_of_pairwise_cons hsorted hx
      obtain ⟨hbelow, hat⟩ := search_samples hT hseg hS w
      rw [searchLoop']
      generalize search e.offsets.length _ = i at hbelow hat ⊢
      cases hi : e.offsets[i]? with
      | none =>
        -- past the end: every sample is below `w`
        have habove : ∀ o ∈ e.offsets, o.value < w := by
          intro o ho
          obtain ⟨k, hk, rfl⟩ := List.getElem_of_mem ho
          exact hbelow k (lt_of_lt_of_le hk (List.getElem?_eq_none_iff.mp hi)) _
            (List.getElem?_eq_getElem hk)
        have hnf : ∀ x ∈ w :: ws, lookupRange T L N x = notFoundRange :=
          fun x hx => lookupRange_of_above_samples hT hseg hS habove (hw x hx)
        simp only [List.map_append, List.length_map, List.map_congr_left hnf, List.map_const']
        congr 3
        simp only [List.length_cons] at htotal ⊢
        omega
      | some o =>
        obtain ⟨o', ho', hscan, hfresh⟩ := scan_start hT hseg hS hbelow (hat o hi) hi
        obtain ⟨ws₁, ws', hsplit, hiter, hne⟩ := iterLoop_spec hT hseg hS (T.length + 1) o'.tableOff _
          (w :: ws) (done.map (lookupRange T L N)) [] done w ws rfl (by omega) hsorted hscan
          (fun _ _ => by rw [setEnd_nil, List.append_nil])
        simp only [ho', Option.map_some, Option.getD_some, hiter]
        have hlen₁ := List.length_pos_of_ne_nil (hne rfl hfresh)
        have hlens := congrArg List.length hsplit
        simp only [List.length_append, List.length_cons] at hlens hlen htotal
        rw [ih ws' (done ++ ws₁) (hsorted.sublist (hsplit ▸ List.sublist_append_right _ _)) (by omega)
          (by simp only [List.length_append]; omega), List.append_assoc, ← hsplit]

/-- A value below the first sample is below the whole segment. -/
theorem lookupRange_of_lt_first {o : PostingOffset} {x : String} (ho : e.offsets.head? = some o)
    (hx : x < o.value) : lookupRange T L N x = notFoundRange := by
  apply lookupRange_of_not_mem hT hseg L
  intro ent hent heq
  obtain ⟨p, hp1, hp2, hp⟩ := exists_pos_of_mem_seg hT hent
  obtain ⟨y, hy, hyv⟩ := hS.entry_value (List.mem_of_mem_head? ho)
  rw [hS.first o ho] at hy
  have hle := value_le_of_le hT hseg (le_refl _) hp1 hp2 hy hp
  rw [hyv, heq] at hle
  exact absurd hx (not_lt.mpr hle)

/-- `postingsOffset` on a name whose samples are `e` answers every sorted list of
wanted values as the full table does. -/
theorem postingsOffset_spec {r : BinaryReader} (hr : r.table = T)
    (hget : getPostings r.postings N = some e) {values : List String}
    (hv : values.Pairwise (· ≤ ·)) :
    r.postingsOffset N values = .ok (values.map (lookupRange T L N)) := by
  rw [BinaryReader.postingsOffset, hget]
  by_cases hnil : values = []
  · subst hnil
    rfl
  · obtain ⟨o, ho⟩ := Option.ne_none_iff_exists'.mp (List.head?_eq_none_iff.not.mpr hS.ne)
    simp only [if_neg hnil, ho, Option.map_some, Option.getD_some, hr]
    -- the values discarded before the first sample are not in the table
    have hdisc : (values.takeWhile fun x => decide (x < o.value)).map (fun _ => notFoundRange) =
        (values.takeWhile fun x => decide (x < o.value)).map (lookupRange T L N) := by
      refine (List.map_congr_left fun x hx => ?_).symm
      exact lookupRange_of_lt_first hT hseg hS ho (by simpa using List.mem_takeWhile_imp hx)
    have hlen := congrArg List.length
      (List.takeWhile_append_dropWhile (p := fun x => decide (x < o.value)) (l := values))
    rw [List.length_append] at hlen
    rw [hdisc, searchLoop'_spec hT hseg hS _ _ _ _ (hv.sublist (List.dropWhile_sublist _)) (by omega) hlen,
      List.takeWhile_append_dropWhile]

end Scan

end Thanos.IndexHeader

