import Thanos.Lib.Compare

/-! # Merging and grouping sorted lists

Two merges of lists sorted by a lawful comparison: `mergeDedup` keeps one of two
elements that compare equal, `mergeCombine` combines them. Both keep their inputs
sorted and miss no input element. `groupRuns` joins the runs of consecutive keyed
entries whose keys compare equal; on a sorted list every key ends up in one entry
holding all its values in order. Nothing here is specific to one program. -/

namespace Cmp

variable {α : Type}

/-- Merging two lists that come first-first under `cmp` (`0 < cmp a b`: `a` first),
keeping the left one of two elements that compare equal, which then meets the next
right one. -/
def mergeDedup (cmp : α → α → Int) : List α → List α → List α
  | [], bs => bs
  | a :: as, [] => a :: as
  | a :: as, b :: bs =>
    if 0 < cmp a b then a :: mergeDedup cmp as (b :: bs)
    else if cmp a b < 0 then b :: mergeDedup cmp (a :: as) bs
    else mergeDedup cmp (a :: as) bs
termination_by as bs => as.length + bs.length

/-- Merging two lists that come first-first under `cmp` (`cmp a b < 0`: `a` first),
combining two elements that compare equal with `f`. -/
def mergeCombine (cmp : α → α → Int) (f : α → α → α) : List α → List α → List α
  | [], bs => bs
  | a :: as, [] => a :: as
  | a :: as, b :: bs =>
    if 0 < cmp a b then b :: mergeCombine cmp f (a :: as) bs
    else if cmp a b < 0 then a :: mergeCombine cmp f as (b :: bs)
    else f a b :: mergeCombine cmp f as bs
termination_by as bs => as.length + bs.length

section Merge

variable {cmp : α → α → Int}

@[simp] theorem mergeCombine_nil_left (f : α → α → α) (bs : List α) : mergeCombine cmp f [] bs = bs := by
  simp [mergeCombine]

@[simp] theorem mergeCombine_nil_right (f : α → α → α) (as : List α) : mergeCombine cmp f as [] = as := by
  cases as <;> simp [mergeCombine]

theorem mergeCombine_of_pos (f : α → α → α) {a b : α} (as bs : List α) (h : 0 < cmp a b) :
    mergeCombine cmp f (a :: as) (b :: bs) = b :: mergeCombine cmp f (a :: as) bs := by
  rw [mergeCombine, if_pos h]

theorem mergeCombine_of_neg (f : α → α → α) {a b : α} (as bs : List α) (h : cmp a b < 0) :
    mergeCombine cmp f (a :: as) (b :: bs) = a :: mergeCombine cmp f as (b :: bs) := by
  rw [mergeCombine, if_neg (by omega), if_pos h]

theorem mergeCombine_of_eq (f : α → α → α) {a b : α} (as bs : List α) (h : cmp a b = 0) :
    mergeCombine cmp f (a :: as) (b :: bs) = f a b :: mergeCombine cmp f as bs := by
  rw [mergeCombine, if_neg (by omega), if_neg (by omega)]

theorem length_mergeCombine_le (f : α → α → α) (as bs : List α) :
    (mergeCombine cmp f as bs).length ≤ as.length + bs.length := by
  fun_induction mergeCombine cmp f as bs with
  | case1 bs => simp
  | case2 a as => simp
  | case3 a as b bs _ ih => simp only [List.length_cons] at *; omega
  | case4 a as b bs _ _ ih => simp only [List.length_cons] at *; omega
  | case5 a as b bs _ _ ih => simp only [List.length_cons] at *; omega

theorem mem_mergeDedup {as bs : List α} {x : α} (hx : x ∈ mergeDedup cmp as bs) : x ∈ as ∨ x ∈ bs := by
  fun_induction mergeDedup cmp as bs with
  | case1 bs => exact Or.inr hx
  | case2 a as => exact Or.inl hx
  | case3 a as b bs _ ih =>
    rcases List.mem_cons.mp hx with rfl | hx
    · exact Or.inl List.mem_cons_self
    · exact (ih hx).imp (List.mem_cons_of_mem _) id
  | case4 a as b bs _ _ ih =>
    rcases List.mem_cons.mp hx with rfl | hx
    · exact Or.inr List.mem_cons_self
    · exact (ih hx).imp id (List.mem_cons_of_mem _)
  | case5 a as b bs _ _ ih => exact (ih hx).imp id (List.mem_cons_of_mem _)

theorem mem_mergeCombine {f : α → α → α} {as bs : List α} {x : α} (hx : x ∈ mergeCombine cmp f as bs) :
    x ∈ as ∨ x ∈ bs ∨ ∃ a ∈ as, ∃ b ∈ bs, cmp a b = 0 ∧ x = f a b := by
  fun_induction mergeCombine cmp f as bs with
  | case1 bs => exact Or.inr (Or.inl hx)
  | case2 a as => exact Or.inl hx
  | case3 a as b bs _ ih =>
    rcases List.mem_cons.mp hx with rfl | hx
    · exact Or.inr (Or.inl List.mem_cons_self)
    · rcases ih hx with h | h | ⟨a', ha', b', hb', h⟩
      · exact Or.inl h
      · exact Or.inr (Or.inl (List.mem_cons_of_mem _ h))
      · exact Or.inr (Or.inr ⟨a', ha', b', List.mem_cons_of_mem _ hb', h⟩)
  | case4 a as b bs _ _ ih =>
    rcases List.mem_cons.mp hx with rfl | hx
    · exact Or.inl List.mem_cons_self
    · rcases ih hx with h | h | ⟨a', ha', b', hb', h⟩
      · exact Or.inl (List.mem_cons_of_mem _ h)
      · exact Or.inr (Or.inl h)
      · exact Or.inr (Or.inr ⟨a', List.mem_cons_of_mem _ ha', b', hb', h⟩)
  | case5 a as b bs h1 h2 ih =>
    rcases List.mem_cons.mp hx with rfl | hx
    · exact Or.inr (Or.inr ⟨a, List.mem_cons_self, b, List.mem_cons_self, by omega, rfl⟩)
    · rcases ih hx with h | h | ⟨a', ha', b', hb', h⟩
      · exact Or.inl (List.mem_cons_of_mem _ h)
      · exact Or.inr (Or.inl (List.mem_cons_of_mem _ h))
      · exact Or.inr (Or.inr ⟨a', List.mem_cons_of_mem _ ha', b', List.mem_cons_of_mem _ hb', h⟩)

/-- Every left element is kept, or combined with the right one it equals. -/
theorem mem_mergeCombine_left {f : α → α → α} {as bs : List α} {x : α} (hx : x ∈ as) :
    x ∈ mergeCombine cmp f as bs ∨ ∃ b ∈ bs, cmp x b = 0 ∧ f x b ∈ mergeCombine cmp f as bs := by
  fun_induction mergeCombine cmp f as bs with
  | case1 bs => simp at hx
  | case2 a as => exact Or.inl hx
  | case3 a as b bs _ ih =>
    rcases ih hx with h | ⟨b', hb', he, h⟩
    · exact Or.inl (List.mem_cons_of_mem _ h)
    · exact Or.inr ⟨b', List.mem_cons_of_mem _ hb', he, List.mem_cons_of_mem _ h⟩
  | case4 a as b bs _ _ ih =>
    rcases List.mem_cons.mp hx with rfl | hx
    · exact Or.inl List.mem_cons_self
    · rcases ih hx with h | ⟨b', hb', he, h⟩
      · exact Or.inl (List.mem_cons_of_mem _ h)
      · exact Or.inr ⟨b', hb', he, List.mem_cons_of_mem _ h⟩
  | case5 a as b bs h1 h2 ih =>
    rcases List.mem_cons.mp hx with rfl | hx
    · exact Or.inr ⟨b, List.mem_cons_self, by omega, List.mem_cons_self⟩
    · rcases ih hx with h | ⟨b', hb', he, h⟩
      · exact Or.inl (List.mem_cons_of_mem _ h)
      · exact Or.inr ⟨b', List.mem_cons_of_mem _ hb', he, List.mem_cons_of_mem _ h⟩

/-- Every right element is kept, or combined with the left one it equals. -/
theorem mem_mergeCombine_right {f : α → α → α} {as bs : List α} {y : α} (hy : y ∈ bs) :
    y ∈ mergeCombine cmp f as bs ∨ ∃ a ∈ as, cmp a y = 0 ∧ f a y ∈ mergeCombine cmp f as bs := by
  fun_induction mergeCombine cmp f as bs with
  | case1 bs => exact Or.inl hy
  | case2 a as => simp at hy
  | case3 a as b bs _ ih =>
    rcases List.mem_cons.mp hy with rfl | hy
    · exact Or.inl List.mem_cons_self
    · rcases ih hy with h | ⟨a', ha', he, h⟩
      · exact Or.inl (List.mem_cons_of_mem _ h)
      · exact Or.inr ⟨a', ha', he, List.mem_cons_of_mem _ h⟩
  | case4 a as b bs _ _ ih =>
    rcases ih hy with h | ⟨a', ha', he, h⟩
    · exact Or.inl (List.mem_cons_of_mem _ h)
    · exact Or.inr ⟨a', List.mem_cons_of_mem _ ha', he, List.mem_cons_of_mem _ h⟩
  | case5 a as b bs h1 h2 ih =>
    rcases List.mem_cons.mp hy with rfl | hy
    · exact Or.inr ⟨a, List.mem_cons_self, by omega, List.mem_cons_self⟩
    · rcases ih hy with h | ⟨a', ha', he, h⟩
      · exact Or.inl (List.mem_cons_of_mem _ h)
      · exact Or.inr ⟨a', List.mem_cons_of_mem _ ha', he, List.mem_cons_of_mem _ h⟩

/-- The keys of a merge are the keys of its inputs, when combining keeps the left key
and elements that compare equal have one key. -/
theorem mem_map_mergeCombine {κ : Type} {f : α → α → α} (key : α → κ) (hf : ∀ a b, key (f a b) = key a)
    (hk : ∀ a b, cmp a b = 0 → key a = key b) {as bs : List α} {k : κ} :
    k ∈ (mergeCombine cmp f as bs).map key ↔ k ∈ as.map key ∨ k ∈ bs.map key := by
  simp only [List.mem_map]
  constructor
  · rintro ⟨x, hx, rfl⟩
    rcases mem_mergeCombine hx with hx | hx | ⟨a, ha, b, _, _, rfl⟩
    · exact Or.inl ⟨x, hx, rfl⟩
    · exact Or.inr ⟨x, hx, rfl⟩
    · exact Or.inl ⟨a, ha, (hf a b).symm⟩
  · rintro (⟨a, ha, rfl⟩ | ⟨b, hb, rfl⟩)
    · rcases @mem_mergeCombine_left α cmp f as bs a ha with h | ⟨b, _, _, h⟩
      · exact ⟨a, h, rfl⟩
      · exact ⟨f a b, h, hf a b⟩
    · rcases @mem_mergeCombine_right α cmp f as bs b hb with h | ⟨a, _, hab, h⟩
      · exact ⟨b, h, rfl⟩
      · exact ⟨f a b, h, (hf a b).trans (hk a b hab)⟩

variable (h : Lawful cmp)
include h

/-- `mergeDedup` of sorted lists is sorted. -/
theorem mergeDedup_sorted {as bs : List α} (ha : as.Pairwise fun a b => 0 < cmp a b)
    (hb : bs.Pairwise fun a b => 0 < cmp a b) : (mergeDedup cmp as bs).Pairwise fun a b => 0 < cmp a b := by
  fun_induction mergeDedup cmp as bs with
  | case1 bs => exact hb
  | case2 a as => exact ha
  | case3 a as b bs hab ih =>
    -- `a` comes before the rest of `as`, before `b`, and so before the rest of `bs`
    obtain ⟨ha1, ha2⟩ := List.pairwise_cons.mp ha
    obtain ⟨hb1, _⟩ := List.pairwise_cons.mp hb
    refine List.pairwise_cons.mpr ⟨fun y hy => ?_, ih ha2 hb⟩
    rcases mem_mergeDedup hy with hy | hy
    · exact ha1 y hy
    · rcases List.mem_cons.mp hy with rfl | hy
      · exact hab
      · exact h.trans_pos hab (hb1 y hy)
  | case4 a as b bs hab hab' ih =>
    obtain ⟨ha1, _⟩ := List.pairwise_cons.mp ha
    obtain ⟨hb1, hb2⟩ := List.pairwise_cons.mp hb
    have hba : 0 < cmp b a := by rw [h.swap]; omega
    refine List.pairwise_cons.mpr ⟨fun y hy => ?_, ih ha hb2⟩
    rcases mem_mergeDedup hy with hy | hy
    · rcases List.mem_cons.mp hy with rfl | hy
      · exact hba
      · exact h.trans_pos hba (ha1 y hy)
    · exact hb1 y hy
  | case5 a as b bs _ _ ih => exact ih ha (List.pairwise_cons.mp hb).2

/-- `mergeDedup` keeps an element equal to each input element. -/
theorem mergeDedup_covers {as bs : List α} {x : α} (hx : x ∈ as ∨ x ∈ bs) :
    ∃ y ∈ mergeDedup cmp as bs, cmp x y = 0 := by
  fun_induction mergeDedup cmp as bs generalizing x with
  | case1 bs => exact ⟨x, hx.resolve_left (by simp), h.refl x⟩
  | case2 a as => exact ⟨x, hx.resolve_right (by simp), h.refl x⟩
  | case3 a as b bs _ ih =>
    rcases hx with hx | hx
    · rcases List.mem_cons.mp hx with rfl | hx
      · exact ⟨x, List.mem_cons_self, h.refl x⟩
      · obtain ⟨y, hy, he⟩ := ih (Or.inl hx)
        exact ⟨y, List.mem_cons_of_mem _ hy, he⟩
    · obtain ⟨y, hy, he⟩ := ih (Or.inr hx)
      exact ⟨y, List.mem_cons_of_mem _ hy, he⟩
  | case4 a as b bs _ _ ih =>
    rcases hx with hx | hx
    · obtain ⟨y, hy, he⟩ := ih (Or.inl hx)
      exact ⟨y, List.mem_cons_of_mem _ hy, he⟩
    · rcases List.mem_cons.mp hx with rfl | hx
      · exact ⟨x, List.mem_cons_self, h.refl x⟩
      · obtain ⟨y, hy, he⟩ := ih (Or.inr hx)
        exact ⟨y, List.mem_cons_of_mem _ hy, he⟩
  | case5 a as b bs h1 h2 ih =>
    rcases hx with hx | hx
    · exact ih (Or.inl hx)
    · rcases List.mem_cons.mp hx with rfl | hx
      · -- the dropped right element equals the left one, which is kept
        obtain ⟨y, hy, he⟩ := ih (Or.inl (List.mem_cons_self (a := a)))
        exact ⟨y, hy, h.zero_trans (h.zero_symm (by omega)) he⟩
      · exact ih (Or.inr hx)

/-- `mergeCombine` of sorted lists is sorted when combining keeps the place. -/
theorem mergeCombine_sorted {f : α → α → α} (hf : ∀ a b, cmp a b = 0 → cmp (f a b) a = 0) {as bs : List α}
    (ha : as.Pairwise fun a b => cmp a b < 0) (hb : bs.Pairwise fun a b => cmp a b < 0) :
    (mergeCombine cmp f as bs).Pairwise fun a b => cmp a b < 0 := by
  -- what comes before every input element comes before every output element
  have hbound : ∀ {as bs : List α} {x : α}, (∀ y ∈ as, cmp x y < 0) → (∀ y ∈ bs, cmp x y < 0) →
      ∀ y ∈ mergeCombine cmp f as bs, cmp x y < 0 := by
    intro as bs x hxa hxb y hy
    rcases mem_mergeCombine hy with hy | hy | ⟨a, ha, b, _, hab, rfl⟩
    · exact hxa y hy
    · exact hxb y hy
    · exact h.lt_of_lt_of_zero (hxa a ha) (h.zero_symm (hf a b hab))
  fun_induction mergeCombine cmp f as bs with
  | case1 bs => exact hb
  | case2 a as => exact ha
  | case3 a as b bs hab ih =>
    obtain ⟨ha1, _⟩ := List.pairwise_cons.mp ha
    obtain ⟨hb1, hb2⟩ := List.pairwise_cons.mp hb
    have hba : cmp b a < 0 := by rw [h.swap]; omega
    refine List.pairwise_cons.mpr ⟨hbound (fun y hy => ?_) hb1, ih ha hb2⟩
    rcases List.mem_cons.mp hy with rfl | hy
    · exact hba
    · exact h.trans _ _ _ hba (ha1 y hy)
  | case4 a as b bs _ hab ih =>
    obtain ⟨ha1, ha2⟩ := List.pairwise_cons.mp ha
    obtain ⟨hb1, _⟩ := List.pairwise_cons.mp hb
    refine List.pairwise_cons.mpr ⟨hbound ha1 (fun y hy => ?_), ih ha2 hb⟩
    rcases List.mem_cons.mp hy with rfl | hy
    · exact hab
    · exact h.trans _ _ _ hab (hb1 y hy)
  | case5 a as b bs h1 h2 ih =>
    obtain ⟨ha1, ha2⟩ := List.pairwise_cons.mp ha
    obtain ⟨hb1, hb2⟩ := List.pairwise_cons.mp hb
    have hab : cmp a b = 0 := by omega
    have hfa := hf a b hab
    refine List.pairwise_cons.mpr ⟨hbound (fun y hy => ?_) (fun y hy => ?_), ih ha2 hb2⟩
    · rw [h.congr _ _ _ hfa]; exact ha1 y hy
    · rw [h.congr _ _ _ (h.zero_trans hfa hab)]; exact hb1 y hy

end Merge

/-- Joining each run of consecutive entries whose keys compare equal into the run's
first entry, values in order; `p` is the entry of the run being built. -/
def groupRuns {κ ν : Type} (cmp : κ → κ → Int) (p : κ × List ν) : List (κ × List ν) → List (κ × List ν)
  | [] => [p]
  | f :: fs => if cmp f.1 p.1 ≠ 0 then p :: groupRuns cmp f fs else groupRuns cmp (p.1, p.2 ++ f.2) fs

section Group

variable {κ ν : Type} {cmp : κ → κ → Int}

theorem length_groupRuns_le (p : κ × List ν) (fs : List (κ × List ν)) :
    (groupRuns cmp p fs).length ≤ fs.length + 1 := by
  induction fs generalizing p with
  | nil => simp [groupRuns]
  | cons f fs ih =>
    by_cases hfp : cmp f.1 p.1 = 0
    · rw [groupRuns, if_neg (not_not.mpr hfp)]
      have := ih (p.1, p.2 ++ f.2)
      simp only [List.length_cons]
      omega
    · rw [groupRuns, if_pos hfp]
      have := ih f
      simp only [List.length_cons]
      omega

/-- Entries sorted by key: `cmp ≤ 0` between any two in order. -/
abbrev KeySorted (cmp : κ → κ → Int) (fs : List (κ × List ν)) : Prop := fs.Pairwise fun x y => cmp x.1 y.1 ≤ 0

/-- Joining an entry into the run before it, with the same key, keeps the list sorted. -/
theorem keySorted_join {p f : κ × List ν} {fs : List (κ × List ν)} (hk : f.1 = p.1)
    (hs : KeySorted cmp (p :: f :: fs)) : KeySorted cmp ((p.1, p.2 ++ f.2) :: fs) := by
  obtain ⟨hf1, hf2⟩ := List.pairwise_cons.mp (List.pairwise_cons.mp hs).2
  refine List.pairwise_cons.mpr ⟨fun y hy => ?_, hf2⟩
  rw [← hk]
  exact hf1 y hy

/-- In a sorted list, no entry after a change of key has the key before it. -/
theorem key_ne_of_keySorted (h : Lawful cmp) {p f x : κ × List ν} {fs : List (κ × List ν)}
    (hs : KeySorted cmp (p :: f :: fs)) (hne : cmp f.1 p.1 ≠ 0) (hx : x ∈ f :: fs) : x.1 ≠ p.1 := by
  intro hxp
  obtain ⟨hp, hf⟩ := List.pairwise_cons.mp hs
  have hpf : cmp p.1 f.1 ≤ 0 := hp f List.mem_cons_self
  have hfx : cmp f.1 x.1 ≤ 0 := by
    rcases List.mem_cons.mp hx with rfl | hx
    · have := h.refl x.1
      omega
    · exact (List.pairwise_cons.mp hf).1 x hx
  rw [hxp] at hfx
  have := h.swap p.1 f.1
  omega

variable (hz : ∀ a b, cmp a b = 0 ↔ a = b)
include hz

/-- The keys of the runs are the keys of the entries. -/
theorem mem_keys_groupRuns {p : κ × List ν} {fs : List (κ × List ν)} {k : κ} :
    k ∈ (groupRuns cmp p fs).map Prod.fst ↔ k ∈ (p :: fs).map Prod.fst := by
  induction fs generalizing p with
  | nil => simp [groupRuns]
  | cons f fs ih =>
    by_cases hfp : cmp f.1 p.1 = 0
    · have hk : f.1 = p.1 := (hz _ _).mp hfp
      rw [groupRuns, if_neg (not_not.mpr hfp), ih]
      simp [hk]
    · rw [groupRuns, if_pos hfp]
      simp [ih]

variable (h : Lawful cmp)
include h

theorem groupRuns_sorted {p : κ × List ν} {fs : List (κ × List ν)} (hs : KeySorted cmp (p :: fs)) :
    (groupRuns cmp p fs).Pairwise fun x y => cmp x.1 y.1 < 0 := by
  induction fs generalizing p with
  | nil => simp [groupRuns]
  | cons f fs ih =>
    by_cases hfp : cmp f.1 p.1 = 0
    · -- the joined entry keeps `p`'s key, which is `f`'s
      have hk : f.1 = p.1 := (hz _ _).mp hfp
      rw [groupRuns, if_neg (not_not.mpr hfp)]
      exact ih (keySorted_join hk hs)
    · rw [groupRuns, if_pos hfp]
      refine List.pairwise_cons.mpr ⟨fun g hg => ?_, ih (List.pairwise_cons.mp hs).2⟩
      obtain ⟨x, hx, hxg⟩ := List.mem_map.mp ((mem_keys_groupRuns hz).mp (List.mem_map_of_mem hg))
      have hle : cmp p.1 x.1 ≤ 0 := (List.pairwise_cons.mp hs).1 x hx
      have hne : cmp p.1 x.1 ≠ 0 := fun h0 => key_ne_of_keySorted h hs hfp hx ((hz _ _).mp h0).symm
      rw [← hxg]
      omega

/-- On a sorted list, each run holds the values of all entries with its key, in order. -/
theorem values_groupRuns [DecidableEq κ] {p : κ × List ν} {fs : List (κ × List ν)}
    (hs : KeySorted cmp (p :: fs)) :
    ∀ g ∈ groupRuns cmp p fs, g.2 = ((p :: fs).filter fun x => x.1 = g.1).flatMap Prod.snd := by
  induction fs generalizing p with
  | nil =>
    intro g hg
    rw [groupRuns, List.mem_singleton] at hg
    subst hg
    simp
  | cons f fs ih =>
    intro g hg
    by_cases hfp : cmp f.1 p.1 = 0
    · have hk : f.1 = p.1 := (hz _ _).mp hfp
      rw [groupRuns, if_neg (not_not.mpr hfp)] at hg
      rw [ih (keySorted_join hk hs) g hg]
      by_cases hg1 : p.1 = g.1 <;> simp [hg1, hk]
    · rw [groupRuns, if_pos hfp] at hg
      rcases List.mem_cons.mp hg with rfl | hg
      · -- no later entry has the key of the run just closed
        have hnil : ((f :: fs).filter fun x => x.1 = g.1) = [] :=
          List.filter_eq_nil_iff.mpr fun x hx => by simpa using key_ne_of_keySorted h hs hfp hx
        rw [List.filter_cons_of_pos (by simp), List.flatMap_cons, hnil]
        simp
      · rw [ih (List.pairwise_cons.mp hs).2 g hg]
        obtain ⟨x, hx, hxg⟩ := List.mem_map.mp ((mem_keys_groupRuns hz).mp (List.mem_map_of_mem hg))
        have hgp : p.1 ≠ g.1 := fun he => key_ne_of_keySorted h hs hfp hx (hxg.trans he.symm)
        rw [List.filter_cons_of_neg (a := p) (by simpa using hgp)]

end Group

end Cmp
