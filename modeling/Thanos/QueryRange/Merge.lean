import Thanos.Go.Sort
import Mathlib.Data.List.Sort
import Mathlib.Data.List.TakeWhile
import Mathlib.Algebra.Order.Ring.Rat

/-! # Merging range-query responses

`prometheusCodec.MergeResponse` of the query frontend (`queryrange`) joins the
matrix responses of the parts of a split range query: it sorts the responses by
the first timestamp of their first series (`byFirstTime`), and `matrixMerge`
appends each series' samples response by response, dropping those that are not
after the last sample kept for that series.

Histogram samples carry a value of an arbitrary type `H`. `sort.Sort` over at
most twelve responses is an insertion sort, which keeps equal keys in their
order: the model sorts with `List.insertionSort`. A series is identified, as in
the source, by the text of its label set. -/

namespace Thanos.QueryRange

open Go.Sort

structure Sample where
  value : ℚ
  timestampMs : Int
  deriving DecidableEq, Repr

structure SampleHistogramPair (H : Type) where
  timestamp : Int
  histogram : H
  deriving DecidableEq, Repr

structure SampleStream (H : Type) where
  labels : List (String × String)
  samples : List Sample
  histograms : List (SampleHistogramPair H)
  deriving DecidableEq, Repr

structure PrometheusResponse (H : Type) where
  result : List (SampleStream H)
  warnings : List String
  headers : List (String × List String)
  deriving DecidableEq, Repr

variable {H : Type}

def resultsCacheGenNumberHeaderName : String := "Results-Cache-Gen-Number"

def newEmptyPrometheusResponse : PrometheusResponse H := ⟨[], [], []⟩

/-- `getHeaderValuesWithName`. -/
def getHeaderValuesWithName (r : PrometheusResponse H) (headerName : String) : List String :=
  r.headers.flatMap fun hv => if hv.1 = headerName then hv.2 else []

/-! ## Label sets as text

`labels.Labels.String` of Prometheus v0.303: `{name="value", ...}`, each value quoted by
`strconv.Quote`, and a name quoted too when it is not a legacy name. Go's `strconv.IsPrint`
is taken from the ASCII table; a character beyond ASCII counts as printable. -/

/-- `strconv.IsPrint` on ASCII: the characters from the space to the tilde. -/
def isPrint (c : Char) : Bool :=
  if c.toNat < 0x80 then 0x20 ≤ c.toNat && c.toNat < 0x7f else true

/-- The last `width` hexadecimal digits of `n`, in lower case, as `strconv` writes them. -/
def hexDigits (width n : Nat) : List Char :=
  (List.range width).reverse.map fun i => Nat.digitChar (n / 16 ^ i % 16)

def backslash : Char := Char.ofNat 92

def doubleQuote : Char := Char.ofNat 34

/-- `strconv.appendEscapedRune` for a double-quoted string. -/
def escapeRune (c : Char) : List Char :=
  if c = doubleQuote ∨ c = backslash then [backslash, c]
  else if isPrint c then [c]
  else match c.toNat with
    | 7 => [backslash, 'a']
    | 8 => [backslash, 'b']
    | 12 => [backslash, 'f']
    | 10 => [backslash, 'n']
    | 13 => [backslash, 'r']
    | 9 => [backslash, 't']
    | 11 => [backslash, 'v']
    | n =>
      if n < 0x20 ∨ n = 0x7f then backslash :: 'x' :: hexDigits 2 n
      else if n < 0x10000 then backslash :: 'u' :: hexDigits 4 n
      else backslash :: 'U' :: hexDigits 8 n

/-- `strconv.Quote`. -/
def quote (s : String) : String :=
  String.ofList (doubleQuote :: s.toList.flatMap escapeRune ++ [doubleQuote])

/-- `model.LabelName.IsValidLegacy`: a letter or underscore, then letters, digits and
underscores. -/
def isValidLegacy (name : String) : Bool :=
  match name.toList with
  | [] => false
  | c :: cs => (c.isAlpha || c = '_') && cs.all fun c => c.isAlphanum || c = '_'

/-- `labels.Labels.String`. -/
def labelsString (ls : List (String × String)) : String :=
  "\x7b" ++ ", ".intercalate (ls.map fun l =>
    (if isValidLegacy l.1 then l.1 else quote l.1) ++ "=" ++ quote l.2) ++ "\x7d"

example : labelsString [("job", "a\"b"), ("1x", "")] =
    "\x7bjob=\"a\\\"b\", \"1x\"=\"\"\x7d" := by decide

/-- `PrometheusResponse.minTime`: the first timestamp of the first series, or -1. -/
def PrometheusResponse.minTime (resp : PrometheusResponse H) : Int :=
  match resp.result with
  | [] => -1
  | s :: _ =>
    match s.samples, s.histograms with
    | [], [] => -1
    | [], h :: _ => h.timestamp
    | x :: _, [] => x.timestampMs
    | x :: _, h :: _ => min x.timestampMs h.timestamp

/-- The order `sort.Sort(byFirstTime(...))` sorts by. -/
def byFirstTime (a b : PrometheusResponse H) : Prop := a.minTime ≤ b.minTime

instance : DecidableRel (byFirstTime (H := H)) := fun a b =>
  inferInstanceAs (Decidable (a.minTime ≤ b.minTime))

/-- `SliceSamples` and `SliceHistogram`: the elements after `minTs`, found by
binary search, for a list sorted by `ts`. -/
def sliceByTime {α : Type} (ts : α → Int) (xs : List α) (minTs : Int) : List α :=
  match xs, xs.getLast? with
  | x :: _, some l =>
    if minTs < ts x then xs
    else if minTs > ts l then []
    else xs.drop (search xs.length fun i => match xs[i]? with
      | some y => decide (ts y > minTs)
      | none => true)
  | _, _ => xs

def sliceSamples (samples : List Sample) (minTs : Int) : List Sample :=
  sliceByTime Sample.timestampMs samples minTs

def sliceHistogram (histograms : List (SampleHistogramPair H)) (minTs : Int) :
    List (SampleHistogramPair H) :=
  sliceByTime SampleHistogramPair.timestamp histograms minTs

/-- What `matrixMerge` keeps of a series' new samples `stream` after the samples
`existing` already merged: the first one goes if it repeats the last timestamp,
and all up to the last timestamp go if they overlap more. -/
def dropOverlap {α : Type} (ts : α → Int) (slice : List α → Int → List α)
    (existing stream : List α) : List α :=
  match existing.getLast?, stream with
  | some e, s :: rest =>
    if ts e = ts s then rest
    else if ts e > ts s then slice stream (ts e)
    else stream
  | _, _ => stream

/-- `output[metric] = existing`, on the map as a list of entries. -/
def upsert {β : Type} : List (String × β) → String → β → List (String × β)
  | [], k, v => [(k, v)]
  | (k', v') :: rest, k, v => if k' = k then (k, v) :: rest else (k', v') :: upsert rest k v

/-- The key `matrixMerge` files a series under. -/
def SampleStream.metric (stream : SampleStream H) : String := labelsString stream.labels

/-- The body of `matrixMerge`'s loop for one series of one response. -/
def mergeStream (output : List (String × SampleStream H)) (stream : SampleStream H) :
    List (String × SampleStream H) :=
  let metric := stream.metric
  let existing := (output.lookup metric).getD ⟨stream.labels, [], []⟩
  let samples := dropOverlap Sample.timestampMs sliceSamples existing.samples stream.samples
  let histograms := dropOverlap SampleHistogramPair.timestamp sliceHistogram
    existing.histograms stream.histograms
  upsert output metric
    { existing with samples := existing.samples ++ samples,
                    histograms := existing.histograms ++ histograms }

/-- The order of `sort.Strings` on the keys of the output map. -/
def keyLe (a b : String × SampleStream H) : Prop := a.1 ≤ b.1

instance : DecidableRel (keyLe (H := H)) := fun a b => inferInstanceAs (Decidable (a.1 ≤ b.1))

/-- `matrixMerge`: the merged series, ordered by their keys. -/
def matrixMerge (resps : List (PrometheusResponse H)) : List (SampleStream H) :=
  let output := resps.foldl (fun output resp => resp.result.foldl mergeStream output) []
  (output.insertionSort keyLe).map Prod.snd

/-- `prometheusCodec.MergeResponse`, on the fields it fills from its inputs. -/
def mergeResponse (responses : List (PrometheusResponse H)) : PrometheusResponse H :=
  match responses with
  | [] => newEmptyPrometheusResponse
  | _ =>
    let genNumbers := responses.flatMap
      (getHeaderValuesWithName · resultsCacheGenNumberHeaderName)
    let promResponses := responses.insertionSort byFirstTime
    { result := matrixMerge promResponses,
      warnings := promResponses.flatMap PrometheusResponse.warnings,
      headers := if genNumbers = [] then [] else [(resultsCacheGenNumberHeaderName, genNumbers)] }


/-- A list ordered by strictly increasing timestamps. -/
def SortedBy {α : Type} (ts : α → Int) (xs : List α) : Prop := (xs.map ts).Pairwise (· < ·)

instance {α : Type} (ts : α → Int) (xs : List α) : Decidable (SortedBy ts xs) :=
  inferInstanceAs (Decidable ((xs.map ts).Pairwise (· < ·)))

section Slice
variable {α : Type} (ts : α → Int)

theorem le_getLast_of_sorted {xs : List α} {e : α} (hs : (xs.map ts).Pairwise (· ≤ ·))
    (he : xs.getLast? = some e) : ∀ x ∈ xs, ts x ≤ ts e := by
  obtain ⟨ys, rfl⟩ := List.getLast?_eq_some_iff.mp he
  intro x hx
  rw [List.map_append, List.pairwise_append] at hs
  rcases List.mem_append.mp hx with hx | hx
  · exact hs.2.2 _ (List.mem_map_of_mem hx) _ (by simp)
  · rw [List.mem_singleton.mp hx]

theorem le_getLast_of_sortedBy {xs : List α} {e : α} (hs : SortedBy ts xs)
    (he : xs.getLast? = some e) : ∀ x ∈ xs, ts x ≤ ts e :=
  le_getLast_of_sorted ts (hs.imp Int.le_of_lt) he

/-- Every element of `existing` is at or before every element of `stream`, and
two at the same time are the same. -/
def TimedBefore (existing stream : List α) : Prop :=
  ∀ x ∈ existing, ∀ y ∈ stream, ts x ≤ ts y ∧ (ts x = ts y → x = y)

/-- The step of `matrixMerge` on one series: after what was merged so far, the
new samples are appended without repeating the boundary sample. -/
theorem dropOverlap_append (slice : List α → Int → List α) {existing stream : List α}
    (he : SortedBy ts existing) (hs : SortedBy ts stream) (hb : TimedBefore ts existing stream) :
    SortedBy ts (existing ++ dropOverlap ts slice existing stream) ∧
      ∀ z, z ∈ existing ++ dropOverlap ts slice existing stream ↔ z ∈ existing ∨ z ∈ stream := by
  unfold dropOverlap
  cases hl : existing.getLast? with
  | none =>
    rw [List.getLast?_eq_none_iff.mp hl]
    exact ⟨by simpa using hs, by simp⟩
  | some e =>
    cases stream with
    | nil => exact ⟨by simpa using he, by simp⟩
    | cons s rest =>
      have hem := List.mem_of_getLast? hl
      have hlast := le_getLast_of_sortedBy ts he hl
      obtain ⟨hes, heq⟩ := hb e hem s List.mem_cons_self
      have hrest : ∀ y ∈ rest, ts s < ts y := by
        intro y hy
        exact List.rel_of_pairwise_cons (List.pairwise_map.mp hs) hy
      have hsrest : SortedBy ts rest := (List.pairwise_map.mpr (List.pairwise_map.mp hs).of_cons)
      dsimp only
      split_ifs with h1 h2
      · -- the first new sample repeats the last one kept
        have hse : s = e := (heq h1).symm
        refine ⟨?_, fun z => ?_⟩
        · unfold SortedBy
          rw [List.map_append, List.pairwise_append]
          refine ⟨he, hsrest, ?_⟩
          simp only [List.mem_map]
          rintro _ ⟨x, hx, rfl⟩ _ ⟨y, hy, rfl⟩
          have := hlast x hx
          have := hrest y hy
          omega
        · simp only [List.mem_append, List.mem_cons]
          constructor
          · rintro (hz | hz)
            · exact Or.inl hz
            · exact Or.inr (Or.inr hz)
          · rintro (hz | rfl | hz)
            · exact Or.inl hz
            · exact Or.inl (hse ▸ hem)
            · exact Or.inr hz
      · omega
      · refine ⟨?_, fun z => by simp⟩
        unfold SortedBy
        rw [List.map_append, List.pairwise_append]
        refine ⟨he, hs, ?_⟩
        simp only [List.mem_map, List.mem_cons]
        rintro _ ⟨x, hx, rfl⟩ _ ⟨y, rfl | hy, rfl⟩
        · have := hlast x hx
          omega
        · have := hlast x hx
          have := hrest y hy
          omega

end Slice

section Upsert
variable {β : Type}

theorem keys_upsert (m : List (String × β)) (k : String) (v : β) :
    (upsert m k v).map Prod.fst =
      if k ∈ m.map Prod.fst then m.map Prod.fst else m.map Prod.fst ++ [k] := by
  induction m with
  | nil => simp [upsert]
  | cons p rest ih =>
    obtain ⟨k', v'⟩ := p
    by_cases hk : k' = k
    · subst hk
      simp [upsert]
    · have hk' : k ≠ k' := Ne.symm hk
      simp only [upsert, hk, if_false, List.map_cons, ih, List.mem_cons, hk', false_or]
      split_ifs <;> simp

theorem nodup_upsert {m : List (String × β)} (hnd : (m.map Prod.fst).Nodup) (k : String) (v : β) :
    ((upsert m k v).map Prod.fst).Nodup := by
  rw [keys_upsert]
  split_ifs with hk
  · exact hnd
  · exact hnd.append (List.nodup_singleton k) (by simpa using hk)

theorem mem_keys_upsert (m : List (String × β)) (k k' : String) (v : β) :
    k' ∈ (upsert m k v).map Prod.fst ↔ k' = k ∨ k' ∈ m.map Prod.fst := by
  rw [keys_upsert]
  split_ifs with hk
  · constructor
    · exact Or.inr
    · rintro (rfl | h)
      · exact hk
      · exact h
  · simp [or_comm]

theorem mem_upsert {m : List (String × β)} (hnd : (m.map Prod.fst).Nodup) {k : String} {v : β}
    {p : String × β} : p ∈ upsert m k v ↔ p = (k, v) ∨ (p ∈ m ∧ p.1 ≠ k) := by
  induction m with
  | nil => simp [upsert]
  | cons q rest ih =>
    obtain ⟨k', v'⟩ := q
    have hnd' : k' ∉ rest.map Prod.fst ∧ (rest.map Prod.fst).Nodup := by simpa using hnd
    by_cases hk : k' = k
    · subst hk
      simp only [upsert, if_true, List.mem_cons]
      constructor
      · rintro (h | h)
        · exact Or.inl h
        · refine Or.inr ⟨Or.inr h, fun he => hnd'.1 ?_⟩
          exact he ▸ List.mem_map_of_mem h
      · rintro (h | ⟨h | h, hne⟩)
        · exact Or.inl h
        · exact absurd (by rw [h]) hne
        · exact Or.inr h
    · simp only [upsert, hk, if_false, List.mem_cons, ih hnd'.2]
      constructor
      · rintro (rfl | h | h)
        · exact Or.inr ⟨Or.inl rfl, hk⟩
        · exact Or.inl h
        · exact Or.inr ⟨Or.inr h.1, h.2⟩
      · rintro (h | ⟨rfl | h, hne⟩)
        · exact Or.inr (Or.inl h)
        · exact Or.inl rfl
        · exact Or.inr (Or.inr ⟨h, hne⟩)

theorem mem_of_lookup_eq_some {m : List (String × β)} {k : String} {v : β}
    (h : m.lookup k = some v) : (k, v) ∈ m := by
  obtain ⟨l₁, l₂, rfl, _⟩ := List.lookup_eq_some_iff.mp h
  simp

theorem not_mem_keys_of_lookup_eq_none {m : List (String × β)} {k : String}
    (h : m.lookup k = none) : k ∉ m.map Prod.fst := by
  intro hk
  obtain ⟨p, hp, rfl⟩ := List.mem_map.mp hk
  have := List.lookup_eq_none_iff.mp h p hp
  simp at this

end Upsert


end Thanos.QueryRange
