import Thanos.Downsample.Basic
import Thanos.Go.Binary

/-! # The bytes of an aggregate chunk

`EncodeAggrChunk` writes the five sub-chunks of a downsampled chunk one after the other:
a zero length for an unset aggregate, and otherwise the uvarint length of the sub-chunk's
bytes, its encoding byte and the bytes. `AggrChunk.Get` walks that layout from the start
for every request and hands the entry it stops at to `chunkenc.FromData`.

The walk checks each length against the bytes left with `int(l) + 1`, an `int64` sum, and
two things follow. A zero length needs one more byte after it, so an unset last aggregate
reads as `invalid size` rather than `ErrAggrNotExist` (`getLoop_encodeEntries`). And a
length of `2 ^ 63 - 1` or more passes the check, as the sum wraps to zero or below, and
then slices out of range (`get_count_panics_of_huge_length`). A panic is `none`. -/

namespace Thanos.Downsample

open GoBinary

/-- The aggregates by their numbers, `AggrCount` to `AggrCounter`. -/
def AggrType.all : List AggrType := [.count, .sum, .min, .max, .counter]

/-- The number of an aggregate, the `iota` of its constant. -/
def AggrType.toNat : AggrType → Nat
  | .count => 0
  | .sum => 1
  | .min => 2
  | .max => 3
  | .counter => 4

theorem AggrType.getElem?_all (t : AggrType) : AggrType.all[t.toNat]? = some t := by
  cases t <;> rfl

namespace AggrBytes

/-- A `chunkenc.Chunk` as its encoding byte and its bytes. -/
structure RawChunk where
  encoding : UInt8
  bytes : List UInt8
  deriving DecidableEq, Repr

/-- The encodings `chunkenc.FromData` knows: `EncXOR`, `EncHistogram` and
`EncFloatHistogram`. -/
def knownEncoding (e : UInt8) : Bool :=
  e == 1 || e == 2 || e == 3

/-- `chunkenc.FromData`. -/
def fromData (e : UInt8) (d : List UInt8) : Except String RawChunk :=
  if knownEncoding e then .ok ⟨e, d⟩ else .error "invalid chunk encoding"

/-- `ErrAggrNotExist`. -/
def errAggrNotExist : String := "aggregate does not exist"

/-- `binary.PutUvarint(buf[:], x)` into the 8-byte buffer of `EncodeAggrChunk`: `none`
where the value needs more bytes, and the write panics. -/
def putUvarintBuf (x : Nat) : Option (List UInt8) :=
  if (putUvarint x).length ≤ 8 then some (putUvarint x) else none

/-- One entry of `EncodeAggrChunk`: the zero length of an unset aggregate, or the length,
the encoding byte and the bytes of a sub-chunk. -/
def encodeEntry : Option RawChunk → Option (List UInt8)
  | none => putUvarintBuf 0
  | some c => (putUvarintBuf c.bytes.length).map (· ++ c.encoding :: c.bytes)

/-- The loop of `EncodeAggrChunk` over the sub-chunks in turn. -/
def encodeEntries : List (Option RawChunk) → Option (List UInt8)
  | [] => some []
  | c :: cs => do
    let e ← encodeEntry c
    let es ← encodeEntries cs
    pure (e ++ es)

/-- `AggrChunk`: the bytes `EncodeAggrChunk` writes. -/
structure AggrChunk where
  bytes : List UInt8
  deriving DecidableEq, Repr

/-- `EncodeAggrChunk`, the array of sub-chunks indexed by aggregate. -/
def encodeAggrChunk (chks : AggrType → Option RawChunk) : Option AggrChunk :=
  (encodeEntries (AggrType.all.map chks)).map AggrChunk.mk

/-- The call after the loop of `Get`: `x[0]` panics on an empty entry. -/
def fromEntry : List UInt8 → Option (Except String RawChunk)
  | [] => none
  | e :: d => some (fromData e d)

/-- The loop of `AggrChunk.Get` for aggregate number `t`, at aggregate `i` with the bytes
`b` still to walk and the last entry `x` taken. -/
def getLoop (t : Nat) : Nat → Nat → List UInt8 → List UInt8 → Option (Except String RawChunk)
  | 0, _, _, x => fromEntry x
  | fuel + 1, i, b, x =>
    let r := uvarint b
    -- `int(l) + 1`, in `int64`
    let k := wrapInt64 (toInt64 r.1 + 1)
    if r.2 < 1 ∨ ((b.drop r.2.toNat).length : Int) < k then some (.error "invalid size")
    else if r.1 = 0 then
      if i = t then some (.error errAggrNotExist)
      else getLoop t fuel (i + 1) (b.drop r.2.toNat) x
    -- `b[:int(l)+1]` panics on a negative bound
    else if k < 0 then none
    else getLoop t fuel (i + 1) ((b.drop r.2.toNat).drop k.toNat) ((b.drop r.2.toNat).take k.toNat)

/-- `AggrChunk.Get`: `none` for a panic. -/
def AggrChunk.get (c : AggrChunk) (t : AggrType) : Option (Except String RawChunk) :=
  getLoop t.toNat (t.toNat + 1) 0 c.bytes []

/-! ## The layout `EncodeAggrChunk` writes -/

/-- The sub-chunks `EncodeAggrChunk` writes and `Get` reads back: not empty, below the
`2 ^ 56` bytes whose length still fits the 8-byte buffer, and of an encoding that
`FromData` knows. -/
structure ValidSubChunk (c : RawChunk) : Prop where
  nonempty : c.bytes ≠ []
  small : c.bytes.length < 2 ^ 56
  known : knownEncoding c.encoding = true

/-- The bytes of one entry of the layout. -/
def entryBytes : Option RawChunk → List UInt8
  | none => putUvarint 0
  | some c => putUvarint c.bytes.length ++ c.encoding :: c.bytes

theorem putUvarintBuf_of_lt {x : Nat} (hx : x < 2 ^ 56) : putUvarintBuf x = some (putUvarint x) := by
  rw [putUvarintBuf, if_pos (length_putUvarint_le 7 (by simpa using hx))]

theorem encodeEntries_eq_flatMap (cs : List (Option RawChunk))
    (hcs : ∀ c ∈ cs, ∀ r, c = some r → ValidSubChunk r) :
    encodeEntries cs = some (cs.flatMap entryBytes) := by
  induction cs with
  | nil => rfl
  | cons c cs ih =>
    have hc : encodeEntry c = some (entryBytes c) := by
      cases c with
      | none => exact putUvarintBuf_of_lt (by norm_num)
      | some r =>
        rw [encodeEntry, putUvarintBuf_of_lt (hcs _ List.mem_cons_self r rfl).small]
        rfl
    rw [encodeEntries, hc, ih (fun c' hc' => hcs c' (List.mem_cons_of_mem c hc'))]
    rfl

theorem encodeAggrChunk_eq (chks : AggrType → Option RawChunk)
    (hchks : ∀ t r, chks t = some r → ValidSubChunk r) :
    encodeAggrChunk chks = some ⟨(AggrType.all.map chks).flatMap entryBytes⟩ := by
  rw [encodeAggrChunk, encodeEntries_eq_flatMap]
  · rfl
  · intro c hc r hr
    obtain ⟨t, -, rfl⟩ := List.mem_map.mp hc
    exact hchks t r hr

/-! ## The walk of `Get` over the layout -/

/-- An unset aggregate's zero length: the walk stops there if it is the requested one, and
needs one more byte after it in any case. -/
theorem getLoop_unset_entry (t fuel i : Nat) (b x : List UInt8) :
    getLoop t (fuel + 1) i (entryBytes none ++ b) x =
      if b = [] then some (.error "invalid size")
      else if i = t then some (.error errAggrNotExist)
      else getLoop t fuel (i + 1) b x := by
  have hzero : entryBytes none = [0] := by rw [entryBytes, putUvarint_of_lt (by norm_num)]; rfl
  have hread : uvarint (0 :: b) = (0, 1) := rfl
  rw [hzero, List.singleton_append, getLoop, hread]
  by_cases hb : b = []
  · subst hb
    simp [toInt64, wrapInt64]
  · have hlen : (1 : Int) ≤ b.length := by
      have := List.length_pos_iff.mpr hb
      omega
    simp [toInt64, wrapInt64, hb, show ¬((b.length : Int) < 1) by omega]

/-- A set aggregate's entry: the walk takes its encoding byte and bytes and goes on. -/
theorem getLoop_set_entry (t fuel i : Nat) {c : RawChunk} (hc : ValidSubChunk c)
    (b x : List UInt8) :
    getLoop t (fuel + 1) i (entryBytes (some c) ++ b) x =
      getLoop t fuel (i + 1) b (c.encoding :: c.bytes) := by
  have hlt : c.bytes.length < 2 ^ 64 := by have := hc.small; omega
  have hpos : 0 < c.bytes.length := List.length_pos_iff.mpr hc.nonempty
  -- `int(l) + 1` does not wrap for a length below `2 ^ 56`
  have hk : wrapInt64 (toInt64 c.bytes.length + 1) = c.bytes.length + 1 := by
    rw [toInt64_of_lt (by have := hc.small; omega)]
    exact wrapInt64_of_isInt64 ⟨by omega, by have := hc.small; omega⟩
  have hn : 1 ≤ ((putUvarint c.bytes.length).length : Int) := by
    have := List.length_pos_iff.mpr (putUvarint_ne_nil c.bytes.length)
    omega
  rw [entryBytes, List.append_assoc, getLoop, uvarint_putUvarint hlt, hk]
  simp only [Int.toNat_natCast, List.drop_left, List.cons_append, List.length_cons,
    List.length_append]
  rw [if_neg (by omega), if_neg (by omega), if_neg (by omega)]
  have hsplit : (c.encoding :: (c.bytes ++ b)) = (c.encoding :: c.bytes) ++ b := rfl
  rw [show ((c.bytes.length : Int) + 1).toNat = (c.encoding :: c.bytes).length by simp,
    hsplit, List.drop_left, List.take_left]

/-- `Get` walks the entries before the `j`-th one and reads it: a set sub-chunk comes back
as it was written, and an unset one is `ErrAggrNotExist` unless it is the last entry with
nothing after it, which is `invalid size`. -/
theorem getLoop_encodeEntries (es : List (Option RawChunk))
    (hes : ∀ c ∈ es, ∀ r, c = some r → ValidSubChunk r) (rest : List UInt8) (i j : Nat)
    (hj : j < es.length) (x : List UInt8) :
    getLoop (i + j) (j + 1) i (es.flatMap entryBytes ++ rest) x =
      some (match es[j] with
        | some c => .ok c
        | none =>
          if j + 1 = es.length ∧ rest = [] then .error "invalid size" else .error errAggrNotExist) := by
  induction es generalizing i j x with
  | nil => simp at hj
  | cons e es ih =>
    have hes' : ∀ c ∈ es, ∀ r, c = some r → ValidSubChunk r :=
      fun c hc => hes c (List.mem_cons_of_mem e hc)
    rw [List.flatMap_cons, List.append_assoc]
    cases j with
    | zero =>
      -- the requested entry is the first one
      cases e with
      | none =>
        rw [getLoop_unset_entry]
        by_cases hnil : es = [] ∧ rest = []
        · obtain ⟨rfl, rfl⟩ := hnil
          simp
        · have hne : es.flatMap entryBytes ++ rest ≠ [] := by
            intro h
            apply hnil
            refine ⟨?_, (List.append_eq_nil_iff.mp h).2⟩
            cases es with
            | nil => rfl
            | cons e' es' =>
              have := (List.append_eq_nil_iff.mp h).1
              simp [List.flatMap_cons, entryBytes] at this
              cases e' <;> simp [putUvarint_ne_nil] at this
          simp only [hne, if_false, Nat.add_zero, if_true, List.getElem_cons_zero,
            List.length_cons, Nat.add_right_cancel_iff]
          rw [if_neg (fun h => hnil ⟨List.length_eq_zero_iff.mp h.1.symm, h.2⟩)]
      | some c =>
        have hc := hes _ List.mem_cons_self c rfl
        rw [getLoop_set_entry _ _ _ hc]
        simp [getLoop, fromEntry, fromData, hc.known]
    | succ j =>
      -- walk over the first entry and read the `j`-th of the rest
      have hj' : j < es.length := by simpa using hj
      have hidx : i + (j + 1) = (i + 1) + j := by omega
      cases e with
      | none =>
        have hne : es.flatMap entryBytes ++ rest ≠ [] := by
          obtain ⟨e', es', rfl⟩ := List.exists_cons_of_length_pos (by omega : 0 < es.length)
          cases e' <;> simp [entryBytes, putUvarint_ne_nil]
        rw [getLoop_unset_entry, if_neg hne, if_neg (by omega), hidx, ih hes' (i + 1) j hj']
        simp
      | some c =>
        rw [getLoop_set_entry _ _ _ (hes _ List.mem_cons_self c rfl), hidx,
          ih hes' (i + 1) j hj']
        simp

/-- `Get` on what `EncodeAggrChunk` wrote: every set aggregate comes back as it was, an
unset one is `ErrAggrNotExist`, and an unset `AggrCounter`, the last entry, is
`invalid size`. -/
theorem get_encodeAggrChunk (chks : AggrType → Option RawChunk)
    (hchks : ∀ t r, chks t = some r → ValidSubChunk r) (t : AggrType) :
    (encodeAggrChunk chks).map (AggrChunk.get · t) =
      some (some (match chks t with
        | some c => .ok c
        | none => if t = .counter then .error "invalid size" else .error errAggrNotExist)) := by
  have hes : ∀ c ∈ AggrType.all.map chks, ∀ r, c = some r → ValidSubChunk r := by
    intro c hc r hr
    obtain ⟨t', -, rfl⟩ := List.mem_map.mp hc
    exact hchks t' r hr
  have hj : t.toNat < (AggrType.all.map chks).length := by
    simp only [List.length_map, AggrType.all, List.length_cons, List.length_nil]
    cases t <;> decide
  have hget : (AggrType.all.map chks)[t.toNat] = chks t := by
    rw [List.getElem_map]
    cases t <;> rfl
  -- the last entry is `AggrCounter`'s
  have hlast : t.toNat + 1 = (AggrType.all.map chks).length ↔ t = .counter := by
    simp only [List.length_map, AggrType.all, List.length_cons, List.length_nil]
    cases t <;> decide
  have hwalk := getLoop_encodeEntries _ hes [] 0 t.toNat hj []
  rw [Nat.zero_add, List.append_nil] at hwalk
  rw [encodeAggrChunk_eq chks hchks, Option.map_some, AggrChunk.get, hwalk]
  simp only [hget, hlast, and_true]

/-- A length of `2 ^ 63 - 1` or more passes the size check, since `int(l) + 1` wraps to
zero or below, and reading the first aggregate then slices with a negative bound or indexes
an empty entry. -/
theorem get_count_panics_of_huge_length {l : Nat} (hl : 2 ^ 63 - 1 ≤ l) (hl' : l < 2 ^ 64)
    (rest : List UInt8) : AggrChunk.get ⟨putUvarint l ++ rest⟩ .count = none := by
  have hk : wrapInt64 (toInt64 l + 1) ≤ 0 := by
    unfold wrapInt64 toInt64
    split <;> omega
  have hn : 1 ≤ ((putUvarint l).length : Int) := by
    have := List.length_pos_iff.mpr (putUvarint_ne_nil l)
    omega
  have hpass : ¬(((putUvarint l).length : Int) < 1 ∨
      (((putUvarint l ++ rest).drop (putUvarint l).length).length : Int) <
        wrapInt64 (toInt64 l + 1)) := by
    omega
  rw [AggrChunk.get, AggrType.toNat, getLoop, uvarint_putUvarint hl']
  simp only [Int.toNat_natCast]
  rw [if_neg hpass, if_neg (by omega)]
  by_cases hneg : wrapInt64 (toInt64 l + 1) < 0
  · rw [if_pos hneg]
  · -- `l = 2 ^ 64 - 1`: `int(l) + 1 = 0`, and `x[0]` indexes the empty entry
    rw [if_neg hneg, show wrapInt64 (toInt64 l + 1) = 0 by omega]
    rfl

theorem encodeAggrChunk_unset_counter_fails :
    encodeAggrChunk (fun t => if t = .count then some ⟨1, [0, 0]⟩ else none) =
        some ⟨[2, 1, 0, 0, 0, 0, 0, 0]⟩ ∧
      AggrChunk.get ⟨[2, 1, 0, 0, 0, 0, 0, 0]⟩ .counter = some (.error "invalid size") ∧
      AggrChunk.get ⟨[0xff, 0xff, 0xff, 0xff, 0xff, 0xff, 0xff, 0xff, 0xff, 0x01]⟩ .count =
        none := by
  refine ⟨?_, by decide, by decide⟩
  have hvalid : ∀ t r, (if t = AggrType.count then some (⟨1, [0, 0]⟩ : RawChunk) else none) =
      some r → ValidSubChunk r := by
    intro t r hr
    split at hr
    · cases hr
      exact ⟨by simp, by simp, by decide⟩
    · cases hr
  rw [encodeAggrChunk_eq _ hvalid]
  simp [AggrType.all, entryBytes, putUvarint_of_lt]

end AggrBytes

end Thanos.Downsample
