import Mathlib

/-! # Tallies of weighted messages

`tally w ms k` is the weight the messages `ms` give the key `k`, `w m k` summed over `ms`.
A collector that bumps a counter per key for each message holds, after a prefix of the
messages, the tally of that prefix (`getElem?_foldl_bump`); tallies add up over `++`, do not
depend on the order of the messages and only grow with them. When no source gives a key more
than one in all, the messages that weigh on the key come from distinct sources and there are
as many of them as the tally (`nodup_sources`): the counting argument behind a quorum. Nothing
here is specific to one program. -/

namespace Tally

variable {M K R : Type}

/-- The weight `ms` gives `k`. -/
def tally (w : M → K → Nat) (ms : List M) (k : K) : Nat := (ms.map fun m => w m k).sum

/-- Counters by position, each bumped by one per occurrence of its position in `ids`:
`counts[id]++` for each `id`. -/
def bump (counts : List Nat) (ids : List Nat) : List Nat :=
  ids.foldl (fun c i => c.modify i (· + 1)) counts

section Tally

variable {w : M → K → Nat} {k : K}

@[simp] theorem tally_nil : tally w [] k = 0 := rfl

@[simp] theorem tally_cons (m : M) (ms : List M) : tally w (m :: ms) k = w m k + tally w ms k :=
  List.sum_cons

@[simp] theorem tally_append (ms ms' : List M) :
    tally w (ms ++ ms') k = tally w ms k + tally w ms' k := by
  simp [tally]

theorem tally_perm {ms ms' : List M} (h : ms.Perm ms') : tally w ms k = tally w ms' k :=
  (h.map _).sum_eq

theorem tally_sublist_le {ms ms' : List M} (h : ms.Sublist ms') : tally w ms k ≤ tally w ms' k :=
  (h.map _).sum_le_sum fun _ _ => Nat.zero_le _

theorem tally_subperm_le {ms ms' : List M} (h : ms.Subperm ms') :
    tally w ms k ≤ tally w ms' k := by
  obtain ⟨l, hperm, hsub⟩ := h
  rw [← tally_perm hperm]
  exact tally_sublist_le hsub

theorem tally_le_of_forall {w' : M → K → Nat} {ms : List M} (h : ∀ m ∈ ms, w m k ≤ w' m k) :
    tally w ms k ≤ tally w' ms k := by
  induction ms with
  | nil => exact Nat.le_refl 0
  | cons m ms ih =>
    simp only [tally_cons]
    have := h m List.mem_cons_self
    have := ih fun m' hm' => h m' (List.mem_cons_of_mem m hm')
    omega

theorem tally_congr {w' : M → K → Nat} {ms : List M} (h : ∀ m ∈ ms, w m k = w' m k) :
    tally w ms k = tally w' ms k :=
  le_antisymm (tally_le_of_forall fun m hm => (h m hm).le)
    (tally_le_of_forall fun m hm => (h m hm).ge)

theorem tally_map {f : R → M} {rs : List R} : tally w (rs.map f) k = tally (fun r => w (f r)) rs k := by
  simp [tally, Function.comp_def]

theorem tally_filter (p : M → Bool) (ms : List M) :
    tally w (ms.filter p) k = tally (fun m k => if p m then w m k else 0) ms k := by
  induction ms with
  | nil => rfl
  | cons m ms ih => by_cases hp : p m <;> simp [hp, ih]

/-- With weights of at most one, the tally counts the messages that weigh. -/
theorem tally_eq_length_filter {ms : List M} (h : ∀ m ∈ ms, w m k ≤ 1) :
    tally w ms k = (ms.filter (0 < w · k)).length := by
  induction ms with
  | nil => rfl
  | cons m ms ih =>
    have hm := h m List.mem_cons_self
    rw [tally_cons, ih fun m' hm' => h m' (List.mem_cons_of_mem m hm')]
    by_cases hw : 0 < w m k
    · rw [List.filter_cons_of_pos (by simpa using hw), List.length_cons]
      omega
    · rw [List.filter_cons_of_neg (by simpa using hw)]
      omega

/-- When no source gives `k` more than one in all, the messages that weigh on `k` come from
distinct sources, as many as the tally. -/
theorem nodup_sources [DecidableEq R] (src : M → R) {ms : List M}
    (h : ∀ r, tally w (ms.filter (src · = r)) k ≤ 1) :
    ((ms.filter (0 < w · k)).map src).Nodup ∧
      ((ms.filter (0 < w · k)).map src).length = tally w ms k := by
  induction ms with
  | nil => exact ⟨List.nodup_nil, rfl⟩
  | cons m ms ih =>
    have htail : ∀ r, tally w (ms.filter (src · = r)) k ≤ 1 := by
      intro r
      refine le_trans (tally_sublist_le ?_) (h r)
      exact (List.sublist_cons_self m ms).filter _
    obtain ⟨hnodup, hlen⟩ := ih htail
    have hm := h (src m)
    rw [List.filter_cons_of_pos (by simp), tally_cons] at hm
    by_cases hw : 0 < w m k
    · rw [List.filter_cons_of_pos (by simpa using hw), List.map_cons, List.nodup_cons,
        List.length_cons, hlen, tally_cons]
      refine ⟨⟨fun hmem => ?_, hnodup⟩, by omega⟩
      -- a second message of the same source would make the source's tally two
      obtain ⟨m', hm', hsrc⟩ := List.mem_map.mp hmem
      obtain ⟨hm'ms, hpos⟩ := List.mem_filter.mp hm'
      have hmem' : w m' k ∈ (ms.filter (src · = src m)).map fun m => w m k :=
        List.mem_map_of_mem (List.mem_filter.mpr ⟨hm'ms, by simp [hsrc]⟩)
      have hle : w m' k ≤ tally w (ms.filter (src · = src m)) k :=
        List.single_le_sum (fun _ _ => Nat.zero_le _) _ hmem'
      have : 0 < w m' k := by simpa using hpos
      omega
    · rw [List.filter_cons_of_neg (by simpa using hw), tally_cons]
      exact ⟨hnodup, by omega⟩

end Tally

section Bump

@[simp] theorem bump_nil (counts : List Nat) : bump counts [] = counts := rfl

theorem length_bump (counts ids : List Nat) : (bump counts ids).length = counts.length := by
  induction ids generalizing counts with
  | nil => rfl
  | cons i ids ih =>
    simp only [bump, List.foldl_cons] at ih ⊢
    rw [ih, List.length_modify]

theorem getElem?_bump (counts ids : List Nat) (i : Nat) :
    (bump counts ids)[i]? = counts[i]?.map (· + ids.count i) := by
  induction ids generalizing counts with
  | nil => simp [bump]
  | cons j ids ih =>
    simp only [bump, List.foldl_cons] at ih ⊢
    rw [ih, List.getElem?_modify, List.count_cons]
    cases counts[i]? with
    | none => rfl
    | some c =>
      by_cases hji : j = i
      · subst hji
        simp
        omega
      · simp [hji]

/-- Counters bumped message by message, by the positions each message weighs on, hold the
tally of the messages. -/
theorem getElem?_foldl_bump (w : M → Nat → Nat) (ids : M → List Nat)
    (hw : ∀ m i, w m i = (ids m).count i) (ms : List M) (counts : List Nat) (i : Nat) :
    (ms.foldl (fun c m => bump c (ids m)) counts)[i]? = counts[i]?.map (· + tally w ms i) := by
  induction ms generalizing counts with
  | nil => simp
  | cons m ms ih =>
    rw [List.foldl_cons, ih, getElem?_bump, tally_cons, hw]
    cases counts[i]? with
    | none => rfl
    | some c => simp only [Option.map_some]; congr 1; omega

end Bump

theorem length_foldl_modify {α : Type} (f : α → α) (l : List α) (ids : List Nat) :
    (ids.foldl (fun l i => l.modify i f) l).length = l.length := by
  induction ids generalizing l with
  | nil => rfl
  | cons i ids ih => rw [List.foldl_cons, ih, List.length_modify]

end Tally
