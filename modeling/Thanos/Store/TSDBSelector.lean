import Thanos.Lib.Regexp
import Mathlib.Data.List.Sort
import Mathlib.Data.List.Count

/-! # The matchers of the TSDB selector

`ProxyStore.Series` asks the stores a `TSDBSelector` accepts with the query's matchers and,
appended to them, `MatchersForLabelSets` of the label sets the selector accepted: for
every label name of those sets, one regular-expression matcher whose value joins the
name's values with `|`, and the alternative `^$` when some set lacks the name. The
stores read each matcher through `storepb.MatchersToPromMatchers` as a Prometheus
`labels.Matcher`, whose regular expression is matched against the whole label value.

The values are joined without escaping. `matchersForLabelSets_sound` shows the intent
for values without regular-expression metacharacters: every matcher compiles, and a
series that agrees with one of the accepted label sets on their label names satisfies
all of them. A value with a metacharacter is read as syntax, not as itself.

The relabelling of `TSDBSelector` is its keep decision on a label set; the maps of
`MatchersForLabelSets` are kept with their keys in first-seen order, as nothing depends
on the order Go iterates over them. -/

namespace Thanos.Store

open RE2

/-- `labels.Label`. -/
structure Label where
  name : String
  value : String
  deriving DecidableEq, Repr

/-- `labels.Labels`: the names of a label set are unique. -/
structure Labels where
  labels : List Label
  nodup : (labels.map Label.name).Nodup
  deriving DecidableEq

namespace Labels

/-- The names of the label set. -/
abbrev names (ls : Labels) : List String := ls.labels.map Label.name

/-- `Labels.Get`: the value of a name, empty when the name is absent. -/
def get (ls : Labels) (name : String) : String :=
  ((ls.labels.find? fun l => l.name == name).map Label.value).getD ""

theorem get_of_mem {ls : Labels} {l : Label} (h : l ∈ ls.labels) : ls.get l.name = l.value := by
  obtain ⟨labels, nodup⟩ := ls
  induction labels with
  | nil => simp at h
  | cons x xs ih =>
    simp only [List.map_cons, List.nodup_cons] at nodup
    rcases List.mem_cons.mp h with rfl | h
    · simp [get]
    · have hne : x.name ≠ l.name := fun heq => nodup.1 (heq ▸ List.mem_map_of_mem h)
      simpa [get, List.find?_cons, hne] using ih nodup.2 h

theorem get_of_not_mem {ls : Labels} {name : String} (h : name ∉ ls.names) : ls.get name = "" := by
  have hnone : ls.labels.find? (fun l => l.name == name) = none := by
    rw [List.find?_eq_none]
    intro l hl heq
    exact h (by simpa [beq_iff_eq.mp heq] using List.mem_map_of_mem (f := Label.name) hl)
  simp [get, hnone]

end Labels

/-- The label names of some label sets, with their repetitions. -/
def labelNames (labelSets : List Labels) : List String :=
  labelSets.flatMap Labels.names

/-- `TSDBSelector`: its relabel configuration, as the keep decision `relabel.Process` makes
on a label set. -/
structure TSDBSelector where
  relabelConfig : Option (Labels → Bool)

/-- `runRelabelRules`. -/
def TSDBSelector.runRelabelRules (keep : Labels → Bool) (labelSets : List Labels) : List Labels :=
  labelSets.filter keep

/-- `TSDBSelector.MatchLabelSets`: whether the store is queried, and the label sets it is
queried for (`nil` for all of them). -/
def TSDBSelector.matchLabelSets (sr : TSDBSelector) (labelSets : List Labels) :
    Bool × List Labels :=
  match sr.relabelConfig with
  | none => (true, [])
  | some keep =>
    if labelSets.length = 0 then (true, [])
    else
      let matched := runRelabelRules keep labelSets
      (decide (matched.length > 0), matched)

/-- `reMatchEmpty`. -/
def reMatchEmpty : String := "^$"

/-- `storepb.LabelMatcher_Type`. -/
inductive LabelMatcherType where
  | eq
  | neq
  | re
  | nre
  deriving DecidableEq, Repr

/-- `storepb.LabelMatcher`. -/
structure LabelMatcher where
  type : LabelMatcherType
  name : String
  value : String
  deriving DecidableEq, Repr

/-- `labelNameCounts` and `labelNameValues` of `MatchersForLabelSets`; `names` are the keys of
`labelNameValues` in the order they were first set. -/
structure NameMaps where
  names : List String
  counts : String → Nat
  values : String → List String

namespace NameMaps

def empty : NameMaps := ⟨[], fun _ => 0, fun _ => []⟩

/-- The body of `labelSet.Range` for one label. -/
def add (m : NameMaps) (l : Label) : NameMaps where
  names := if l.name ∈ m.names then m.names else m.names ++ [l.name]
  counts := Function.update m.counts l.name (m.counts l.name + 1)
  values := Function.update m.values l.name ((m.values l.name).insert l.value)

@[simp] theorem add_counts (m : NameMaps) (l : Label) (n : String) :
    (m.add l).counts n = m.counts n + if l.name = n then 1 else 0 := by
  by_cases h : l.name = n
  · subst h
    simp [add]
  · simp [add, Function.update_of_ne (Ne.symm h), h]

@[simp] theorem mem_add_values (m : NameMaps) (l : Label) (n v : String) :
    v ∈ (m.add l).values n ↔ v ∈ m.values n ∨ (l.name = n ∧ l.value = v) := by
  by_cases h : l.name = n
  · subst h
    simp [add, eq_comm, or_comm]
  · simp [add, Function.update_of_ne (Ne.symm h), h]

@[simp] theorem mem_add_names (m : NameMaps) (l : Label) (n : String) :
    n ∈ (m.add l).names ↔ n ∈ m.names ∨ l.name = n := by
  unfold add
  split <;> simp_all [eq_comm]

/-- The labels of one label set, added one after the other. -/
theorem foldl_add (xs : List Label) (m : NameMaps) (n : String) :
    (xs.foldl add m).counts n = m.counts n + (xs.map Label.name).count n ∧
      (∀ v, v ∈ (xs.foldl add m).values n ↔ v ∈ m.values n ∨ ⟨n, v⟩ ∈ xs) ∧
      (n ∈ (xs.foldl add m).names ↔ n ∈ m.names ∨ n ∈ xs.map Label.name) := by
  induction xs generalizing m with
  | nil => simp
  | cons x xs ih =>
    obtain ⟨hc, hv, hn⟩ := ih (m.add x)
    refine ⟨?_, fun v => ?_, ?_⟩
    · rw [List.foldl_cons, hc, add_counts, List.map_cons, List.count_cons]
      by_cases h : x.name = n
      · simp [h]
        omega
      · simp [h]
    · rw [List.foldl_cons, hv, mem_add_values, List.mem_cons]
      obtain ⟨xn, xv⟩ := x
      by_cases h : xn = n
      · subst h
        simp [eq_comm, or_assoc]
      · simp [h, Ne.symm h]
    · rw [List.foldl_cons, hn, mem_add_names, List.map_cons, List.mem_cons, eq_comm]
      tauto

end NameMaps

/-- The first loop of `MatchersForLabelSets`. -/
def collectNames (labelSets : List Labels) : NameMaps :=
  labelSets.foldl (fun m ls => ls.labels.foldl NameMaps.add m) NameMaps.empty

/-- The fold over the label sets, from any maps. -/
theorem foldl_foldl_add (labelSets : List Labels) (m : NameMaps) (n : String) :
    let m' := labelSets.foldl (fun m ls => ls.labels.foldl NameMaps.add m) m
    m'.counts n = m.counts n + (labelNames labelSets).count n ∧
      (∀ v, v ∈ m'.values n ↔ v ∈ m.values n ∨ ∃ l ∈ labelSets, ⟨n, v⟩ ∈ l.labels) ∧
      (n ∈ m'.names ↔ n ∈ m.names ∨ n ∈ labelNames labelSets) := by
  induction labelSets generalizing m with
  | nil => simp [labelNames]
  | cons l ls ih =>
    obtain ⟨hc, hv, hn⟩ := NameMaps.foldl_add l.labels m n
    obtain ⟨hc', hv', hn'⟩ := ih (l.labels.foldl NameMaps.add m)
    simp only [List.foldl_cons, labelNames, List.flatMap_cons, List.count_append,
      List.mem_append] at hc' hv' hn' ⊢
    refine ⟨by rw [hc', hc]; simp [Nat.add_assoc], fun v => ?_, ?_⟩
    · rw [hv', hv]
      simp only [List.mem_cons, exists_eq_or_imp]
      tauto
    · rw [hn', hn]
      simp only [labelNames] at *
      tauto

/-- What the first loop of `MatchersForLabelSets` gathers: how often a name occurs, the
values it takes, and the names. -/
theorem collectNames_spec (labelSets : List Labels) (n : String) :
    (collectNames labelSets).counts n = (labelNames labelSets).count n ∧
      (∀ v, v ∈ (collectNames labelSets).values n ↔ ∃ l ∈ labelSets, ⟨n, v⟩ ∈ l.labels) ∧
      (n ∈ (collectNames labelSets).names ↔ n ∈ labelNames labelSets) := by
  simpa [collectNames, NameMaps.empty] using foldl_foldl_add labelSets NameMaps.empty n

/-- No set has a name twice. -/
theorem count_labelNames_le (labelSets : List Labels) (n : String) :
    (labelNames labelSets).count n ≤ labelSets.length := by
  induction labelSets with
  | nil => simp [labelNames]
  | cons l ls ih =>
    have hl : l.names.count n ≤ 1 := List.nodup_iff_count_le_one.mp l.nodup n
    simp only [labelNames, List.flatMap_cons, List.count_append, List.length_cons] at ih ⊢
    omega

/-- A name that some label set lacks occurs fewer times than there are label sets, as no
set has a name twice. -/
theorem count_labelNames_lt {labelSets : List Labels} {l : Labels} {n : String}
    (hl : l ∈ labelSets) (hn : n ∉ l.names) : (labelNames labelSets).count n < labelSets.length := by
  have hle : ∀ l' : Labels, l'.names.count n ≤ 1 := fun l' =>
    List.nodup_iff_count_le_one.mp l'.nodup n
  induction labelSets with
  | nil => simp at hl
  | cons l' ls ih =>
    simp only [labelNames, List.flatMap_cons, List.count_append, List.length_cons] at ih ⊢
    rcases List.mem_cons.mp hl with rfl | hl
    · have h0 : l.names.count n = 0 := List.count_eq_zero.mpr hn
      have hrest : (ls.flatMap Labels.names).count n ≤ ls.length := count_labelNames_le ls n
      omega
    · have := ih hl
      have := hle l'
      omega

/-- `MatchersForLabelSets`. -/
def matchersForLabelSets (labelSets : List Labels) : List LabelMatcher :=
  let m := collectNames labelSets
  -- a name missing from some label set also matches the empty value
  let values : String → List String := fun n =>
    if m.counts n < labelSets.length then (m.values n).insert reMatchEmpty else m.values n
  m.names.map fun n =>
    ⟨.re, n, String.intercalate "|" ((values n).insertionSort fun a b => a ≤ b)⟩

/-- `labels.Matcher`, by its `MatchType`, with the compiled expression of a regexp matcher. -/
inductive MatchKind where
  | matchEqual
  | matchNotEqual
  | matchRegexp (re : Regexp)
  | matchNotRegexp (re : Regexp)
  deriving DecidableEq, Repr

/-- `labels.Matcher`. -/
structure Matcher where
  kind : MatchKind
  name : String
  value : String
  deriving DecidableEq, Repr

/-- `Matcher.Matches`: a regexp matcher matches the whole value. -/
def Matcher.matches (m : Matcher) (s : String) : Bool :=
  match m.kind with
  | .matchEqual => s == m.value
  | .matchNotEqual => s != m.value
  | .matchRegexp re => matchString re s
  | .matchNotRegexp re => !matchString re s

/-- `storepb.MatcherToPromMatcher`, through `labels.NewMatcher`, which compiles the
expression of a regexp matcher. -/
def matcherToPromMatcher (m : LabelMatcher) : Except ErrorCode Matcher :=
  match m.type with
  | .eq => .ok ⟨.matchEqual, m.name, m.value⟩
  | .neq => .ok ⟨.matchNotEqual, m.name, m.value⟩
  | .re => (parse m.value).map fun re => ⟨.matchRegexp re, m.name, m.value⟩
  | .nre => (parse m.value).map fun re => ⟨.matchNotRegexp re, m.name, m.value⟩

/-- `storepb.MatchersToPromMatchers`: the first error, or all matchers. -/
def matchersToPromMatchers (ms : List LabelMatcher) : Except ErrorCode (List Matcher) :=
  ms.mapM matcherToPromMatcher

/-- A store returns a series when its labels satisfy every matcher of the request. -/
def selects (ms : List Matcher) (s : Labels) : Bool :=
  ms.all fun m => m.matches (s.get m.name)

/-- The matchers of the request `ProxyStore.Series` sends: the query's, then those of the
label sets the selector accepted. -/
def seriesRequestMatchers (storeMatchers : List LabelMatcher) (storeLabelSets : List Labels) :
    List LabelMatcher :=
  storeMatchers ++ matchersForLabelSets storeLabelSets

/-! ## The joined values as a regular expression -/

/-- A value of the joined alternation: `^$`, or a value without metacharacters. -/
def Branch (v : String) : Prop := v = reMatchEmpty ∨ ∀ c ∈ v.toList, c ∉ metaChars

/-- What the parser makes of a value of the joined alternation. -/
def branchItems (v : String) : List Regexp :=
  if v = reMatchEmpty then [.beginText, .endText] else v.toList.map .literal

/-- Whether a value of the joined alternation matches the label value `x`. -/
def branchMatches (v x : String) : Bool :=
  matchesAt (concatOf (branchItems v)) [] x.toList []

/-- `^$` matches the empty value, any other value itself. -/
theorem branchMatches_iff (v x : String) :
    branchMatches v x = true ↔ (v = reMatchEmpty ∧ x = "") ∨ (v ≠ reMatchEmpty ∧ x = v) := by
  by_cases h : v = reMatchEmpty
  · subst h
    have hitems : concatOf (branchItems reMatchEmpty) = .concat .beginText .endText := rfl
    have hempty : x.toList = [] ↔ x = "" := @String.toList_inj x ""
    simp [branchMatches, hitems, matchesAt_beginText_endText, hempty]
  · simp only [branchMatches, branchItems, h, if_false, matchesAt_concatOf_literals]
    simp [String.toList_inj, h]

theorem parseLoop_branch {v : String} (hv : Branch v) (cs : List Char) (alts items : List Regexp)
    (fs : List RE2.Frame) :
    parseLoop (v.toList ++ cs) ⟨alts, items, false⟩ fs =
      parseLoop cs ⟨alts, items ++ branchItems v, false⟩ fs := by
  rcases hv with rfl | hv
  · have : reMatchEmpty.toList = ['^', '$'] := rfl
    rw [this, List.cons_append, parseLoop_beginText, List.cons_append, List.nil_append,
      parseLoop_endText]
    simp [RE2.Frame.push, branchItems]
  · rw [parseLoop_literals hv]
    have h : v ≠ reMatchEmpty := by
      rintro rfl
      exact hv '^' (by decide) (by decide)
    simp [branchItems, h]

/-- The values joined with `|` parse into the alternation of their branches, after the
alternatives `alts` already read. -/
theorem parseLoop_intercalate (v : String) (vs : List String) (hv : ∀ w ∈ v :: vs, Branch w)
    (alts : List Regexp) :
    ∃ re, parseLoop (['|'].intercalate ((v :: vs).map String.toList)) ⟨alts, [], false⟩ [] = .ok re ∧
      ∀ x, matchString re x = (alts.any (fun r => matchesAt r [] x.toList []) ||
        (v :: vs).any fun w => branchMatches w x) := by
  induction vs generalizing v alts with
  | nil =>
    refine ⟨alternateOf alts (concatOf (branchItems v)), ?_, fun x => ?_⟩
    · have := parseLoop_branch (hv v List.mem_cons_self) [] alts [] []
      simpa [parseLoop_nil, RE2.Frame.close] using this
    · simp [matchString, matchesAt_alternateOf, branchMatches]
  | cons w ws ih =>
    obtain ⟨re, hre, hmatch⟩ := ih w (fun u hu => hv u (List.mem_cons_of_mem v hu))
      (alts ++ [concatOf (branchItems v)])
    refine ⟨re, ?_, fun x => ?_⟩
    · rw [List.map_cons, List.map_cons, List.intercalate_cons_cons, List.append_assoc,
        parseLoop_branch (hv v List.mem_cons_self), List.singleton_append, parseLoop_bar]
      simpa [RE2.Frame.bar] using hre
    · rw [hmatch]
      simp [branchMatches, Bool.or_assoc]

theorem parse_intercalate {vs : List String} (hne : vs ≠ []) (hv : ∀ v ∈ vs, Branch v) :
    ∃ re, parse (String.intercalate "|" vs) = .ok re ∧
      ∀ x, matchString re x = vs.any fun v => branchMatches v x := by
  obtain ⟨v, vs, rfl⟩ := List.exists_cons_of_ne_nil hne
  obtain ⟨re, hre, hmatch⟩ := parseLoop_intercalate v vs hv []
  exact ⟨re, by simpa [parse, RE2.Frame.empty, String.toList_intercalate] using hre,
    fun x => by simpa using hmatch x⟩

/-! ## Soundness for values without metacharacters -/

/-- A matcher of `MatchersForLabelSets` is for a name of the label sets, and joins the
name's values, with `^$` when a set lacks the name. -/
theorem mem_matchersForLabelSets {labelSets : List Labels} {m : LabelMatcher}
    (hm : m ∈ matchersForLabelSets labelSets) :
    ∃ n ∈ labelNames labelSets, ∃ vals : List String, m = ⟨.re, n, String.intercalate "|" vals⟩ ∧
      ∀ v, v ∈ vals ↔ (∃ l ∈ labelSets, ⟨n, v⟩ ∈ l.labels) ∨
        (v = reMatchEmpty ∧ (labelNames labelSets).count n < labelSets.length) := by
  obtain ⟨n, hn, rfl⟩ := List.mem_map.mp hm
  obtain ⟨hcount, hvalues, hnames⟩ := collectNames_spec labelSets n
  refine ⟨n, hnames.mp hn, _, rfl, fun v => ?_⟩
  dsimp only
  rw [List.mem_insertionSort, ← hcount]
  split
  · rename_i hlt
    rw [List.mem_insert_iff, hvalues]
    simp only [hlt, and_true]
    exact or_comm
  · rename_i hge
    rw [hvalues]
    simp [hge]

/-- The matchers of the accepted label sets, for values without metacharacters: each
compiles, and a series agreeing with one of the sets on the names of all of them satisfies
it. -/
theorem matchersForLabelSets_sound {labelSets : List Labels}
    (hlit : ∀ l ∈ labelSets, ∀ x ∈ l.labels, ∀ c ∈ x.value.toList, c ∉ metaChars)
    {l s : Labels} (hl : l ∈ labelSets) (hagree : ∀ n ∈ labelNames labelSets, s.get n = l.get n) :
    ∀ m ∈ matchersForLabelSets labelSets,
      ∃ pm, matcherToPromMatcher m = .ok pm ∧ pm.matches (s.get m.name) = true := by
  intro m hm
  obtain ⟨n, hn, vals, rfl, hvals⟩ := mem_matchersForLabelSets hm
  have hbranch : ∀ v ∈ vals, Branch v := by
    intro v hv
    rcases (hvals v).mp hv with ⟨l', hl', hx⟩ | ⟨rfl, -⟩
    · exact Or.inr (hlit l' hl' _ hx)
    · exact Or.inl rfl
  have hmem : ∃ v ∈ vals, branchMatches v (l.get n) = true := by
    by_cases hln : n ∈ l.names
    · obtain ⟨x, hx, rfl⟩ := List.mem_map.mp hln
      have hv : x.value ∈ vals := (hvals _).mpr (Or.inl ⟨l, hl, hx⟩)
      refine ⟨x.value, hv, (branchMatches_iff _ _).mpr (Or.inr ⟨?_, Labels.get_of_mem hx⟩)⟩
      intro h
      exact hlit l hl x hx '^' (by rw [h]; decide) (by decide)
    · exact ⟨reMatchEmpty, (hvals _).mpr (Or.inr ⟨rfl, count_labelNames_lt hl hln⟩),
        (branchMatches_iff _ _).mpr (Or.inl ⟨rfl, Labels.get_of_not_mem hln⟩)⟩
  obtain ⟨v, hv, hvm⟩ := hmem
  obtain ⟨re, hre, hmatch⟩ := parse_intercalate (List.ne_nil_of_mem hv) hbranch
  refine ⟨⟨.matchRegexp re, n, String.intercalate "|" vals⟩, by simp [matcherToPromMatcher, hre, Except.map], ?_⟩
  simp only [Matcher.matches, hmatch, hagree n hn, List.any_eq_true]
  exact ⟨v, hv, hvm⟩

/-- The converted matcher is for the same name. -/
theorem name_of_matcherToPromMatcher {m : LabelMatcher} {pm : Matcher}
    (h : matcherToPromMatcher m = .ok pm) : pm.name = m.name := by
  unfold matcherToPromMatcher at h
  split at h
  · cases h
    rfl
  · cases h
    rfl
  all_goals
    cases hp : parse m.value with
    | error e => simp [hp, Except.map] at h
    | ok re =>
      simp only [hp, Except.map, Except.ok.injEq] at h
      rw [← h]

/-- `MatchersToPromMatchers` succeeds when every matcher converts. -/
theorem matchersToPromMatchers_of_forall {ms : List LabelMatcher} {p : Matcher → Prop}
    (h : ∀ m ∈ ms, ∃ pm, matcherToPromMatcher m = .ok pm ∧ p pm) :
    ∃ pms, matchersToPromMatchers ms = .ok pms ∧ ∀ pm ∈ pms, p pm := by
  induction ms with
  | nil => exact ⟨[], rfl, by simp⟩
  | cons m ms ih =>
    obtain ⟨pm, hpm, hp⟩ := h m List.mem_cons_self
    obtain ⟨pms, hpms, hps⟩ := ih fun m' hm' => h m' (List.mem_cons_of_mem m hm')
    refine ⟨pm :: pms, ?_, by simpa [hp] using hps⟩
    simp only [matchersToPromMatchers, List.mapM_cons, hpm] at hpms ⊢
    rw [hpms]
    rfl

/-- For values without metacharacters, the appended matchers keep every series that agrees
with an accepted label set. -/
theorem matchersForLabelSets_selects {labelSets : List Labels}
    (hlit : ∀ l ∈ labelSets, ∀ x ∈ l.labels, ∀ c ∈ x.value.toList, c ∉ metaChars)
    {l s : Labels} (hl : l ∈ labelSets) (hagree : ∀ n ∈ labelNames labelSets, s.get n = l.get n) :
    ∃ pms, matchersToPromMatchers (matchersForLabelSets labelSets) = .ok pms ∧ selects pms s = true := by
  obtain ⟨pms, hpms, hsel⟩ := matchersToPromMatchers_of_forall
    (p := fun pm => pm.matches (s.get pm.name) = true) (fun m hm => by
      obtain ⟨pm, hpm, hmatch⟩ := matchersForLabelSets_sound hlit hl hagree m hm
      refine ⟨pm, hpm, ?_⟩
      simpa [name_of_matcherToPromMatcher hpm] using hmatch)
  exact ⟨pms, hpms, List.all_eq_true.mpr hsel⟩

theorem matchersForLabelSets_hides_pipe_value :
    matchersToPromMatchers (matchersForLabelSets [⟨[⟨"a", "x|y"⟩], by decide⟩]) =
        .ok [⟨.matchRegexp (.alternate (.literal 'x') (.literal 'y')), "a", "x|y"⟩] ∧
      selects [⟨.matchRegexp (.alternate (.literal 'x') (.literal 'y')), "a", "x|y"⟩]
        ⟨[⟨"a", "x|y"⟩], by decide⟩ = false ∧
      matchersToPromMatchers (matchersForLabelSets [⟨[⟨"a", "("⟩], by decide⟩]) =
        .error .missingParen :=
  ⟨by decide, by decide, by decide⟩

end Thanos.Store
