import Mathlib.Data.List.Basic

/-! # A fragment of RE2 syntax and its matching

Regular expressions as Go's `regexp/syntax` parses them with the Perl flags and `DotNL`:
`.` matches every character, `^` and `$` are the beginning and the end of the text. The
fragment has literals (also escaped punctuation), `.`, the two anchors, concatenation,
alternation, groups `(...)` and `(?s:...)`, and the repetitions `*`, `+` and `?` with their
non-greedy forms, which match the same texts. Character classes, counted repetitions,
other flag groups and escapes of letters and digits are outside it: `parse` answers
`ErrorCode.unsupported` for them, whatever Go makes of them. Like Go's parser, `parse`
reports the first error it meets from the left.

`matchesAt r before s after` says whether `r` matches `s` where the text around `s` is
`before` and `after`, which only the anchors look at. It tries every split of `s` for a
concatenation and every nonempty first iteration for a repetition, so it can be evaluated.
Nothing here is specific to one program. -/

namespace RE2

/-- `syntax.Regexp`, by its `Op`; a group is its contents, as a capture does not change
what matches. -/
inductive Regexp where
  | emptyMatch
  | literal (c : Char)
  | anyChar
  | beginText
  | endText
  | concat (r q : Regexp)
  | alternate (r q : Regexp)
  | star (r : Regexp)
  | plus (r : Regexp)
  | quest (r : Regexp)
  deriving DecidableEq, Repr

/-- `syntax.ErrorCode` for the errors of the fragment, and `unsupported` for syntax
outside it. -/
inductive ErrorCode where
  | missingParen
  | unexpectedParen
  | missingRepeatArgument
  | invalidRepeatOp
  | trailingBackslash
  | invalidEscape
  | unsupported
  deriving DecidableEq, Repr

/-- The items in order; none is the empty match. -/
def concatOf : List Regexp → Regexp
  | [] => .emptyMatch
  | [r] => r
  | r :: rs => .concat r (concatOf rs)

/-- The alternatives `alts`, then `last`. -/
def alternateOf : List Regexp → Regexp → Regexp
  | [], last => last
  | r :: rs, last => .alternate r (alternateOf rs last)

/-! ## Matching -/

/-- At most `fuel` repetitions of `m`, each of at least one character. -/
def starTry (m : List Char → List Char → List Char → Bool) :
    Nat → List Char → List Char → List Char → Bool
  | 0, _, s, _ => s.isEmpty
  | fuel + 1, b, s, a => s.isEmpty || (List.range s.length).any fun k =>
      m b (s.take (k + 1)) (s.drop (k + 1) ++ a) &&
        starTry m fuel (b ++ s.take (k + 1)) (s.drop (k + 1)) a

/-- Whether `r` matches `s` between `b` and `a`. -/
def matchesAt : Regexp → List Char → List Char → List Char → Bool
  | .emptyMatch, _, s, _ => s.isEmpty
  | .literal c, _, s, _ => s == [c]
  | .anyChar, _, s, _ => s.length == 1
  | .beginText, b, s, _ => b.isEmpty && s.isEmpty
  | .endText, _, s, a => s.isEmpty && a.isEmpty
  | .concat r q, b, s, a => (List.range (s.length + 1)).any fun k =>
      matchesAt r b (s.take k) (s.drop k ++ a) && matchesAt q (b ++ s.take k) (s.drop k) a
  | .alternate r q, b, s, a => matchesAt r b s a || matchesAt q b s a
  | .star r, b, s, a => starTry (matchesAt r) s.length b s a
  | .plus r, b, s, a => (List.range (s.length + 1)).any fun k =>
      matchesAt r b (s.take k) (s.drop k ++ a) &&
        starTry (matchesAt r) (s.length - k) (b ++ s.take k) (s.drop k) a
  | .quest r, b, s, a => s.isEmpty || matchesAt r b s a

/-- `Regexp.MatchString` of `^(?s:r)$`: `r` matches the whole text. -/
def matchString (r : Regexp) (s : String) : Bool :=
  matchesAt r [] s.toList []

/-! ## Parsing -/

/-- A group being parsed: its finished alternatives, the concatenation being built, and
whether its last item is a repetition just applied (`lastRepeat`). -/
structure Frame where
  alts : List Regexp
  items : List Regexp
  lastRepeat : Bool
  deriving DecidableEq, Repr

namespace Frame

/-- A group with nothing in it yet. -/
def empty : Frame := ⟨[], [], false⟩

/-- An atom appended to the concatenation. -/
def push (f : Frame) (r : Regexp) : Frame :=
  { f with items := f.items ++ [r], lastRepeat := false }

/-- A `|`: the concatenation becomes an alternative. -/
def bar (f : Frame) : Frame := ⟨f.alts ++ [concatOf f.items], [], false⟩

/-- The group's regular expression, at its `)` or at the end of the text. -/
def close (f : Frame) : Regexp := alternateOf f.alts (concatOf f.items)

/-- `parser.repeat` with the Perl flags: a repetition may not follow a repetition and
needs an item before it. -/
def repeatOp (f : Frame) (op : Regexp → Regexp) : Except ErrorCode Frame :=
  if f.lastRepeat then .error .invalidRepeatOp
  else match f.items.getLast? with
    | none => .error .missingRepeatArgument
    | some r => .ok { f with items := f.items.dropLast ++ [op r], lastRepeat := true }

end Frame

/-- The parse loop over the text, with the group being parsed and the groups around it.
A `?` right after a repetition operator makes it non-greedy; escaped ASCII punctuation is
itself, while letters and digits start escape sequences. -/
def parseLoop : List Char → Frame → List Frame → Except ErrorCode Regexp
  | [], f, [] => .ok f.close
  | [], _, _ :: _ => .error .missingParen
  | '(' :: '?' :: 's' :: ':' :: cs, f, fs => parseLoop cs .empty (f :: fs)
  | '(' :: '?' :: _, _, _ => .error .unsupported
  | '(' :: cs, f, fs => parseLoop cs .empty (f :: fs)
  | ')' :: _, _, [] => .error .unexpectedParen
  | ')' :: cs, f, p :: fs => parseLoop cs (p.push f.close) fs
  | '|' :: cs, f, fs => parseLoop cs f.bar fs
  | '*' :: '?' :: cs, f, fs => (f.repeatOp .star).bind fun f => parseLoop cs f fs
  | '*' :: cs, f, fs => (f.repeatOp .star).bind fun f => parseLoop cs f fs
  | '+' :: '?' :: cs, f, fs => (f.repeatOp .plus).bind fun f => parseLoop cs f fs
  | '+' :: cs, f, fs => (f.repeatOp .plus).bind fun f => parseLoop cs f fs
  | '?' :: '?' :: cs, f, fs => (f.repeatOp .quest).bind fun f => parseLoop cs f fs
  | '?' :: cs, f, fs => (f.repeatOp .quest).bind fun f => parseLoop cs f fs
  | ['\\'], _, _ => .error .trailingBackslash
  | '\\' :: d :: cs, f, fs =>
    if d.toNat < 128 ∧ d.isAlphanum = false then parseLoop cs (f.push (.literal d)) fs
    else if d.toNat < 128 then .error .unsupported
    else .error .invalidEscape
  | '[' :: _, _, _ => .error .unsupported
  | '{' :: _, _, _ => .error .unsupported
  | '.' :: cs, f, fs => parseLoop cs (f.push .anyChar) fs
  | '^' :: cs, f, fs => parseLoop cs (f.push .beginText) fs
  | '$' :: cs, f, fs => parseLoop cs (f.push .endText) fs
  | c :: cs, f, fs => parseLoop cs (f.push (.literal c)) fs

/-- `syntax.Parse` with the Perl flags and `DotNL`, on the fragment. -/
def parse (s : String) : Except ErrorCode Regexp :=
  parseLoop s.toList .empty []

/-- The characters `regexp.QuoteMeta` escapes. -/
def metaChars : List Char :=
  ['\\', '.', '+', '*', '?', '(', ')', '|', '[', ']', '{', '}', '^', '$']

example : parse "x|y" = .ok (.alternate (.literal 'x') (.literal 'y')) := by decide

example : parse "(" = .error .missingParen := by decide

example : parse "a**" = .error .invalidRepeatOp := by decide

/-! ## Alternations of literals -/

-- The lemmas below unfold `matchesAt` and `parseLoop` side by side; their equation lemmas
-- are made here, once, rather than by each of them.
section
attribute [local simp] matchesAt parseLoop
end

section Literals

/-- A literal takes exactly the first character of the text. -/
theorem matchesAt_concat_literal (c : Char) (r : Regexp) (b s a : List Char) :
    matchesAt (.concat (.literal c) r) b s a =
      (s.head? == some c && matchesAt r (b ++ [c]) s.tail a) := by
  cases s with
  | nil => simp [matchesAt]
  | cons x xs =>
    rw [Bool.eq_iff_iff]
    simp only [matchesAt, List.any_eq_true, List.mem_range, Bool.and_eq_true, beq_iff_eq,
      List.head?_cons, Option.some.injEq, List.tail_cons]
    constructor
    · rintro ⟨k, -, htake, hr⟩
      cases k with
      | zero => simp at htake
      | succ k =>
        simp only [List.take_succ_cons, List.cons.injEq] at htake
        obtain ⟨rfl, htake⟩ := htake
        -- the first character is all the literal takes
        have hdrop : xs.drop k = xs := by
          rcases List.take_eq_nil_iff.mp htake with rfl | rfl <;> simp
        simpa [htake, hdrop] using hr
    · rintro ⟨rfl, hr⟩
      exact ⟨1, by simp, by simp, by simpa using hr⟩

/-- The concatenation of the characters of `v` matches `v` and nothing else. -/
theorem matchesAt_concatOf_literals (v b s a : List Char) :
    matchesAt (concatOf (v.map .literal)) b s a = (s == v) := by
  induction v generalizing b s with
  | nil => cases s <;> rfl
  | cons c v ih =>
    cases v with
    | nil => rfl
    | cons c' v =>
      change matchesAt (.concat (.literal c) (concatOf ((c' :: v).map .literal))) b s a = _
      rw [matchesAt_concat_literal, ih]
      cases s <;> simp

/-- `^$` matches the empty text at the beginning and the end. -/
theorem matchesAt_beginText_endText (b s a : List Char) :
    matchesAt (.concat .beginText .endText) b s a = (b.isEmpty && s.isEmpty && a.isEmpty) := by
  rw [Bool.eq_iff_iff]
  simp only [matchesAt, List.any_eq_true, List.mem_range, Bool.and_eq_true, List.isEmpty_iff,
    List.take_eq_nil_iff, List.drop_eq_nil_iff]
  constructor
  · rintro ⟨k, -, ⟨hb, hk⟩, hs, ha⟩
    exact ⟨⟨hb, by rcases hk with rfl | hk <;> simp_all⟩, ha⟩
  · rintro ⟨⟨hb, rfl⟩, ha⟩
    exact ⟨0, by simp, ⟨hb, by simp⟩, by simp, ha⟩

theorem matchesAt_alternateOf (rs : List Regexp) (last : Regexp) (b s a : List Char) :
    matchesAt (alternateOf rs last) b s a =
      (rs.any (fun r => matchesAt r b s a) || matchesAt last b s a) := by
  induction rs with
  | nil => simp [alternateOf]
  | cons r rs ih => simp [alternateOf, matchesAt, ih, Bool.or_assoc]

/-- Outside the metacharacters, the parse loop appends a character as a literal: every
other case of the loop starts with a metacharacter. -/
theorem parseLoop_literal {c : Char} (hc : c ∉ metaChars) (cs : List Char) (f : Frame)
    (fs : List Frame) : parseLoop (c :: cs) f fs = parseLoop cs (f.push (.literal c)) fs := by
  simp only [metaChars, List.mem_cons, List.not_mem_nil, or_false, not_or] at hc
  conv_lhs => unfold parseLoop
  split <;> simp_all

theorem parseLoop_literals {v : List Char} (hv : ∀ c ∈ v, c ∉ metaChars) (cs : List Char)
    (alts items : List Regexp) (fs : List Frame) :
    parseLoop (v ++ cs) ⟨alts, items, false⟩ fs =
      parseLoop cs ⟨alts, items ++ v.map .literal, false⟩ fs := by
  induction v generalizing items with
  | nil => simp
  | cons c v ih =>
    rw [List.cons_append, parseLoop_literal (hv c List.mem_cons_self)]
    have hrest := ih (fun c hc => hv c (List.mem_cons_of_mem _ hc)) (items ++ [.literal c])
    rw [List.append_assoc, List.singleton_append] at hrest
    exact hrest

theorem parseLoop_nil (f : Frame) : parseLoop [] f [] = .ok f.close := by
  rw [parseLoop]

theorem parseLoop_bar (cs : List Char) (f : Frame) (fs : List Frame) :
    parseLoop ('|' :: cs) f fs = parseLoop cs f.bar fs := by
  rw [parseLoop]

theorem parseLoop_beginText (cs : List Char) (f : Frame) (fs : List Frame) :
    parseLoop ('^' :: cs) f fs = parseLoop cs (f.push .beginText) fs := by
  rw [parseLoop]

theorem parseLoop_endText (cs : List Char) (f : Frame) (fs : List Frame) :
    parseLoop ('$' :: cs) f fs = parseLoop cs (f.push .endText) fs := by
  rw [parseLoop]

end Literals

end RE2
