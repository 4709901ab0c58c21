import Mathlib

/-! # Three-way comparisons

A comparison `cmp : α → α → Int` in the style of Go's `Compare` functions, whose
sign says which argument comes first. `Lawful cmp` says it is a total preorder
read that way: swapping the arguments negates it, coming first is transitive, and
arguments that compare equal compare alike with everything. The comparisons of a
linear order, lexicographic combinations and the comparisons of options and of
lists built from lawful ones are lawful. Nothing here is specific to one program. -/

namespace Cmp

variable {α β : Type}

/-- A three-way comparison that is a total preorder. -/
structure Lawful (cmp : α → α → Int) : Prop where
  swap : ∀ a b, cmp b a = -cmp a b
  trans : ∀ a b c, cmp a b < 0 → cmp b c < 0 → cmp a c < 0
  congr : ∀ a b c, cmp a b = 0 → cmp a c = cmp b c

section Lawful

variable {cmp : α → α → Int} (h : Lawful cmp)
include h

theorem Lawful.refl (a : α) : cmp a a = 0 := by
  have := h.swap a a
  omega

theorem Lawful.zero_symm {a b : α} (hab : cmp a b = 0) : cmp b a = 0 := by
  rw [h.swap, hab]
  rfl

theorem Lawful.zero_trans {a b c : α} (hab : cmp a b = 0) (hbc : cmp b c = 0) : cmp a c = 0 :=
  (h.congr a b c hab).trans hbc

theorem Lawful.trans_pos {a b c : α} (hab : 0 < cmp a b) (hbc : 0 < cmp b c) : 0 < cmp a c := by
  have := h.trans c b a (by rw [h.swap]; omega) (by rw [h.swap]; omega)
  rw [h.swap] at this
  omega

/-- `b` and `c` compare alike with `a` when they compare equal. -/
theorem Lawful.congr_right {a b c : α} (hbc : cmp b c = 0) : cmp a b = cmp a c := by
  have := h.congr b c a hbc
  have s1 := h.swap c a
  have s2 := h.swap b a
  omega

theorem Lawful.lt_of_lt_of_zero {a b c : α} (hab : cmp a b < 0) (hbc : cmp b c = 0) : cmp a c < 0 :=
  h.congr_right hbc ▸ hab

theorem Lawful.comap (f : β → α) : Lawful fun a b => cmp (f a) (f b) :=
  ⟨fun a b => h.swap (f a) (f b), fun a b c => h.trans (f a) (f b) (f c),
    fun a b c => h.congr (f a) (f b) (f c)⟩

theorem Lawful.flip : Lawful fun a b => cmp b a :=
  ⟨fun a b => h.swap b a, fun a b c hab hbc => h.trans c b a hbc hab,
   fun _ _ c hab => h.congr_right (a := c) (h.zero_symm hab)⟩

end Lawful

/-- Go's comparison of ordered values: negative when `a` is the smaller. -/
def ltCmp [LinearOrder α] (a b : α) : Int := if a < b then -1 else if b < a then 1 else 0

theorem ltCmp_eq_zero_iff [LinearOrder α] {a b : α} : ltCmp a b = 0 ↔ a = b := by
  unfold ltCmp
  constructor
  · intro h
    split_ifs at h with h1 h2 <;> first | omega | exact le_antisymm (not_lt.mp h2) (not_lt.mp h1)
  · rintro rfl
    simp

theorem ltCmp_neg_iff [LinearOrder α] {a b : α} : ltCmp a b < 0 ↔ a < b := by
  unfold ltCmp
  split_ifs with h1 h2 <;> simp_all [lt_asymm]

theorem lawful_ltCmp [LinearOrder α] : Lawful (@ltCmp α _) where
  swap a b := by
    unfold ltCmp
    rcases lt_trichotomy a b with h | rfl | h
    · simp [h, lt_asymm h]
    · simp
    · simp [h, lt_asymm h]
  trans a b c hab hbc := ltCmp_neg_iff.mpr (lt_trans (ltCmp_neg_iff.mp hab) (ltCmp_neg_iff.mp hbc))
  congr a b c hab := by rw [ltCmp_eq_zero_iff.mp hab]

/-- `c₁`, then `c₂` where `c₁` finds the arguments equal. -/
def lex (c₁ c₂ : α → α → Int) (a b : α) : Int := if c₁ a b = 0 then c₂ a b else c₁ a b

theorem lex_eq_zero_iff {c₁ c₂ : α → α → Int} {a b : α} : lex c₁ c₂ a b = 0 ↔ c₁ a b = 0 ∧ c₂ a b = 0 := by
  unfold lex
  split_ifs with h <;> simp [h]

theorem Lawful.lex {c₁ c₂ : α → α → Int} (h₁ : Lawful c₁) (h₂ : Lawful c₂) : Lawful (lex c₁ c₂) where
  swap a b := by
    unfold Cmp.lex
    by_cases hab : c₁ a b = 0
    · rw [if_pos (h₁.zero_symm hab), if_pos hab, h₂.swap]
    · rw [if_neg (by rw [h₁.swap]; omega), if_neg hab, h₁.swap]
  trans a b c hab hbc := by
    unfold Cmp.lex at *
    by_cases h1 : c₁ a b = 0 <;> by_cases h2 : c₁ b c = 0 <;> simp only [h1, h2, if_true, if_false] at hab hbc
    · rw [if_pos (h₁.zero_trans h1 h2)]
      exact h₂.trans a b c hab hbc
    · have := h₁.congr a b c h1
      rw [if_neg (by omega), this]
      exact hbc
    · have := h₁.lt_of_lt_of_zero hab h2
      rw [if_neg (by omega)]
      exact this
    · have := h₁.trans a b c hab hbc
      rw [if_neg (by omega)]
      exact this
  congr a b c hab := by
    obtain ⟨h1, h2⟩ := lex_eq_zero_iff.mp hab
    unfold Cmp.lex
    rw [h₁.congr a b c h1, h₂.congr a b c h2]

/-- The comparisons in turn, each where the ones before find the arguments equal. -/
def lexAll : List (α → α → Int) → α → α → Int
  | [] => fun _ _ => 0
  | c :: cs => lex c (lexAll cs)

theorem Lawful.lexAll {cs : List (α → α → Int)} (h : ∀ c ∈ cs, Lawful c) : Lawful (Cmp.lexAll cs) := by
  induction cs with
  | nil => exact ⟨fun _ _ => rfl, fun _ _ _ hab _ => by simp [Cmp.lexAll] at hab, fun _ _ _ _ => rfl⟩
  | cons c cs ih => exact (h c List.mem_cons_self).lex (ih fun c' hc' => h c' (List.mem_cons_of_mem _ hc'))

/-- Comparing options as `(*Chunk).Compare` does: a value comes before none. -/
def optionCmp (cmp : α → α → Int) : Option α → Option α → Int
  | none, none => 0
  | some _, none => 1
  | none, some _ => -1
  | some a, some b => cmp a b

theorem Lawful.option {cmp : α → α → Int} (h : Lawful cmp) : Lawful (optionCmp cmp) where
  swap a b := by cases a <;> cases b <;> simp only [optionCmp] <;> first | rfl | exact h.swap _ _
  trans a b c hab hbc := by
    cases a <;> cases b <;> cases c <;> simp [optionCmp] at hab hbc ⊢
    exact h.trans _ _ _ hab hbc
  congr a b c hab := by
    cases a <;> cases b <;> cases c <;> simp [optionCmp] at hab ⊢
    exact h.congr _ _ _ hab

/-- Lexicographic comparison of lists, as `bytes.Compare` and `labels.Compare`: a
proper prefix comes first. -/
def listCmp (cmp : α → α → Int) : List α → List α → Int
  | [], [] => 0
  | [], _ :: _ => -1
  | _ :: _, [] => 1
  | a :: as, b :: bs => if cmp a b = 0 then listCmp cmp as bs else cmp a b

section List

variable {cmp : α → α → Int} (h : Lawful cmp)
include h

theorem listCmp_swap : ∀ as bs : List α, listCmp cmp bs as = -listCmp cmp as bs
  | [], [] => rfl
  | [], _ :: _ => rfl
  | _ :: _, [] => rfl
  | a :: as, b :: bs => by
    simp only [listCmp]
    by_cases hab : cmp a b = 0
    · rw [if_pos (h.zero_symm hab), if_pos hab, listCmp_swap as bs]
    · rw [if_neg (by rw [h.swap]; omega), if_neg hab, h.swap]

theorem listCmp_trans : ∀ as bs cs : List α, listCmp cmp as bs < 0 → listCmp cmp bs cs < 0 →
    listCmp cmp as cs < 0
  | [], _ :: _, _ :: _, _, _ => by simp [listCmp]
  | a :: as, b :: bs, c :: cs, hab, hbc => by
    simp only [listCmp] at *
    by_cases h1 : cmp a b = 0 <;> by_cases h2 : cmp b c = 0 <;> simp only [h1, h2, if_true, if_false] at hab hbc
    · rw [if_pos (h.zero_trans h1 h2)]
      exact listCmp_trans as bs cs hab hbc
    · rw [if_neg (by rw [h.congr a b c h1]; exact h2), h.congr a b c h1]
      exact hbc
    · have := h.lt_of_lt_of_zero hab h2
      rw [if_neg (by omega)]
      exact this
    · have := h.trans a b c hab hbc
      rw [if_neg (by omega)]
      exact this
  | [], [], _, hab, _ => by simp [listCmp] at hab
  | _ :: _, [], _, hab, _ => by simp [listCmp] at hab
  | _, _ :: _, [], _, hbc => by simp [listCmp] at hbc

theorem listCmp_congr : ∀ as bs cs : List α, listCmp cmp as bs = 0 → listCmp cmp as cs = listCmp cmp bs cs
  | [], [], _, _ => rfl
  | a :: as, b :: bs, cs, hab => by
    simp only [listCmp] at hab
    by_cases h1 : cmp a b = 0
    · rw [if_pos h1] at hab
      cases cs with
      | nil => rfl
      | cons c cs =>
        simp only [listCmp, h.congr a b c h1, listCmp_congr as bs cs hab]
    · rw [if_neg h1] at hab
      exact absurd hab h1
  | [], _ :: _, _, hab => by simp [listCmp] at hab
  | _ :: _, [], _, hab => by simp [listCmp] at hab

theorem Lawful.list : Lawful (listCmp cmp) :=
  ⟨listCmp_swap h, listCmp_trans h, listCmp_congr h⟩

end List

theorem listCmp_eq_zero_iff {cmp : α → α → Int} (hz : ∀ a b, cmp a b = 0 ↔ a = b) :
    ∀ {as bs : List α}, listCmp cmp as bs = 0 ↔ as = bs
  | [], [] => by simp [listCmp]
  | [], _ :: _ => by simp [listCmp]
  | _ :: _, [] => by simp [listCmp]
  | a :: as, b :: bs => by
    simp only [listCmp, List.cons.injEq]
    by_cases hab : cmp a b = 0
    · rw [if_pos hab, listCmp_eq_zero_iff hz, (hz a b).mp hab]
      simp
    · rw [if_neg hab]
      exact ⟨fun h' => absurd h' hab, fun ⟨h1, _⟩ => absurd ((hz a b).mpr h1) hab⟩

end Cmp
