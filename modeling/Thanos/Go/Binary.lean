import Mathlib.Tactic.Ring
import Mathlib.Tactic.NormNum

/-! # Varints and the decoding buffer of the TSDB index

Go's `encoding/binary` varints: `PutUvarint` writes seven bits a byte, lowest first, with
the high bit set on every byte but the last; `Uvarint` reads them back and answers the
number of bytes read, `0` when the buffer ends inside the value and minus the bytes read
when the value does not fit in 64 bits (more than ten bytes, or a tenth byte above `1`).
Signed varints zig-zag the value first. Values are `Nat` and `Int`: the bit-or of the
reader is a sum, as the bits it joins are disjoint, and the casts between `int64` and
`uint64` are written out (`toInt64`, `toUint64`, `wrapInt64`).

`Decbuf` is the decoding buffer of Prometheus' `tsdb/encoding`: every read after the first
failed one answers zero, and a failed read sets the error `invalid size`.

`uvarint_putUvarint` and `varint_putVarint` read back what the writers wrote, whatever
follows it. Nothing here is specific to one program. -/

namespace GoBinary

/-- `binary.MaxVarintLen64`. -/
def maxVarintLen64 : Nat := 10

/-- `binary.PutUvarint`, as the bytes it writes. -/
def putUvarint (x : Nat) : List UInt8 :=
  if x < 0x80 then [x.toUInt8] else (x % 0x80 + 0x80).toUInt8 :: putUvarint (x / 0x80)
termination_by x
decreasing_by omega

/-- The loop of `binary.Uvarint` from byte `i` on, with the value `x` read so far and the
shift `s` of the next seven bits. -/
def uvarintLoop : List UInt8 → Nat → Nat → Nat → Nat × Int
  | [], _, _, _ => (0, 0)
  | b :: bs, x, s, i =>
    if i = maxVarintLen64 then (0, -(i + 1 : Int))
    else if b.toNat < 0x80 then
      if i = maxVarintLen64 - 1 ∧ b.toNat > 1 then (0, -(i + 1 : Int))
      else (x + b.toNat * 2 ^ s, i + 1)
    else uvarintLoop bs (x + b.toNat % 0x80 * 2 ^ s) (s + 7) (i + 1)

/-- `binary.Uvarint`: the value and the number of bytes read. -/
def uvarint (buf : List UInt8) : Nat × Int :=
  uvarintLoop buf 0 0 0

/-- The zig-zag form of an `int64`, `uint64(x) << 1` complemented for a negative `x`. -/
def zigzag (x : Int) : Nat :=
  if 0 ≤ x then 2 * x.toNat else (-2 * x - 1).toNat

/-- The `int64` a zig-zag form stands for: `int64(ux >> 1)`, complemented when `ux` is odd. -/
def unzigzag (ux : Nat) : Int :=
  if ux % 2 = 0 then (ux / 2 : Nat) else -((ux / 2 : Nat) : Int) - 1

/-- `binary.PutVarint`. -/
def putVarint (x : Int) : List UInt8 :=
  putUvarint (zigzag x)

/-- `binary.Varint`. -/
def varint (buf : List UInt8) : Int × Int :=
  ((uvarint buf).1 |> unzigzag, (uvarint buf).2)

/-- `int64(x)` of a `uint64`. -/
def toInt64 (x : Nat) : Int :=
  if x < 2 ^ 63 then x else (x : Int) - 2 ^ 64

/-- `uint64(x)` of an `int64`. -/
def toUint64 (x : Int) : Nat :=
  (x % 2 ^ 64).toNat

/-- The `int64` result of an arithmetic operation whose exact value is `x`. -/
def wrapInt64 (x : Int) : Int :=
  (x + 2 ^ 63) % 2 ^ 64 - 2 ^ 63

/-- An `int64` value. -/
def IsInt64 (x : Int) : Prop := -2 ^ 63 ≤ x ∧ x < 2 ^ 63

instance (x : Int) : Decidable (IsInt64 x) := inferInstanceAs (Decidable (_ ∧ _))

section Uvarint

theorem putUvarint_of_lt {x : Nat} (h : x < 0x80) : putUvarint x = [x.toUInt8] := by
  rw [putUvarint, if_pos h]

theorem putUvarint_of_le {x : Nat} (h : 0x80 ≤ x) :
    putUvarint x = (x % 0x80 + 0x80).toUInt8 :: putUvarint (x / 0x80) := by
  rw [putUvarint, if_neg (by omega)]

theorem toNat_toUInt8 {n : Nat} (h : n < 256) : n.toUInt8.toNat = n := by
  simp [Nat.mod_eq_of_lt h]

/-- The reader at byte `i` takes the writer's bytes for `y` when they still fit in
64 bits. -/
theorem uvarintLoop_putUvarint (y x i : Nat) (rest : List UInt8) (hi : i ≤ 9)
    (hy : y < 2 ^ (64 - 7 * i)) :
    uvarintLoop (putUvarint y ++ rest) x (7 * i) i =
      (x + y * 2 ^ (7 * i), ((i + (putUvarint y).length : Nat) : Int)) := by
  induction y using Nat.strongRecOn generalizing x i with
  | ind y ih =>
    by_cases hlt : y < 0x80
    · -- the last byte: below `0x80`, and at most `1` as a tenth byte
      rw [putUvarint_of_lt hlt]
      have hb := toNat_toUInt8 (show y < 256 by omega)
      have htenth : ¬(i = maxVarintLen64 - 1 ∧ y.toUInt8.toNat > 1) := by
        rintro ⟨hi9, hgt⟩
        obtain rfl : i = 9 := by simpa [maxVarintLen64] using hi9
        norm_num at hy
        omega
      simp only [List.cons_append, List.nil_append, uvarintLoop]
      rw [if_neg (by simp [maxVarintLen64]; omega), if_pos (by omega), if_neg htenth, hb]
      simp
    · -- a byte with the continuation bit, then the bytes of `y / 0x80` one shift further
      have hi8 : i ≤ 8 := by
        by_contra hgt
        obtain rfl : i = 9 := by omega
        norm_num at hy
        omega
      have hpow : 2 ^ (64 - 7 * i) = 2 ^ (64 - 7 * (i + 1)) * 0x80 := by
        rw [show 64 - 7 * i = (64 - 7 * (i + 1)) + 7 by omega, pow_add]
        norm_num
      have hnext : y / 0x80 < 2 ^ (64 - 7 * (i + 1)) := by
        rw [Nat.div_lt_iff_lt_mul (by norm_num)]
        rw [hpow] at hy
        exact hy
      have hb := toNat_toUInt8 (show y % 0x80 + 0x80 < 256 by omega)
      rw [putUvarint_of_le (by omega), List.cons_append]
      simp only [uvarintLoop, hb, show i ≠ maxVarintLen64 by simp [maxVarintLen64]; omega,
        if_false, show ¬(y % 0x80 + 0x80 < 0x80) by omega, Nat.add_mod_right, Nat.mod_mod]
      rw [show 7 * i + 7 = 7 * (i + 1) by ring,
        ih (y / 0x80) (by omega) _ (i + 1) (by omega) hnext]
      have hy' : y = y % 0x80 + 0x80 * (y / 0x80) := (Nat.mod_add_div y 0x80).symm
      refine Prod.ext ?_ (by simp; omega)
      simp only
      conv_rhs => rw [hy']
      rw [show 7 * (i + 1) = 7 * i + 7 by ring, pow_add]
      ring

theorem uvarint_putUvarint {y : Nat} (hy : y < 2 ^ 64) (rest : List UInt8) :
    uvarint (putUvarint y ++ rest) = (y, ((putUvarint y).length : Int)) := by
  simpa [uvarint] using uvarintLoop_putUvarint y 0 0 rest (by omega) (by simpa using hy)

theorem putUvarint_ne_nil (x : Nat) : putUvarint x ≠ [] := by
  rw [putUvarint]
  split <;> simp

/-- A value below `2 ^ (7 * (k + 1))` takes at most `k + 1` bytes. -/
theorem length_putUvarint_le (k : Nat) {x : Nat} (hx : x < 2 ^ (7 * (k + 1))) :
    (putUvarint x).length ≤ k + 1 := by
  induction k generalizing x with
  | zero =>
    rw [putUvarint_of_lt (by simpa using hx)]
    simp
  | succ k ih =>
    by_cases hlt : x < 0x80
    · rw [putUvarint_of_lt hlt]
      simp
    · rw [putUvarint_of_le (by omega), List.length_cons]
      have hpow : 2 ^ (7 * (k + 1 + 1)) = 2 ^ (7 * (k + 1)) * 0x80 := by
        rw [show 7 * (k + 1 + 1) = 7 * (k + 1) + 7 by ring, pow_add]
        norm_num
      have := ih (x := x / 0x80) (by rw [Nat.div_lt_iff_lt_mul (by norm_num)]; omega)
      omega

end Uvarint

section Varint

theorem unzigzag_zigzag (x : Int) : unzigzag (zigzag x) = x := by
  unfold zigzag unzigzag
  split
  · rename_i hx
    have : 2 * x.toNat % 2 = 0 := by omega
    simp only [this, if_true]
    omega
  · rename_i hx
    have : (-2 * x - 1).toNat % 2 = 1 := by omega
    simp only [this, one_ne_zero, if_false]
    omega

theorem zigzag_lt {x : Int} (hx : IsInt64 x) : zigzag x < 2 ^ 64 := by
  unfold IsInt64 at hx
  unfold zigzag
  split <;> omega

theorem varint_putVarint {x : Int} (hx : IsInt64 x) (rest : List UInt8) :
    varint (putVarint x ++ rest) = (x, ((putVarint x).length : Int)) := by
  simp [varint, putVarint, uvarint_putUvarint (zigzag_lt hx), unzigzag_zigzag]

end Varint

section Int64

theorem toInt64_toUint64 {x : Int} (hx : IsInt64 x) : toInt64 (toUint64 x) = x := by
  unfold IsInt64 at hx
  unfold toInt64 toUint64
  split <;> omega

theorem toUint64_lt (x : Int) : toUint64 x < 2 ^ 64 := by
  unfold toUint64
  omega

/-- `int64` addition of `int64` values: the sum, wrapped. -/
theorem wrapInt64_of_isInt64 {x : Int} (hx : IsInt64 x) : wrapInt64 x = x := by
  unfold IsInt64 at hx
  unfold wrapInt64
  omega

/-- Adding the `int64` of the `uint64` of a difference wraps back to the value. -/
theorem wrapInt64_add_toInt64_toUint64 {a b : Int} (hb : IsInt64 b) :
    wrapInt64 (a + toInt64 (toUint64 (b - a))) = b := by
  unfold IsInt64 at hb
  unfold wrapInt64 toInt64 toUint64
  split <;> omega

theorem isInt64_toInt64 {x : Nat} (hx : x < 2 ^ 64) : IsInt64 (toInt64 x) := by
  unfold IsInt64 toInt64
  split <;> omega

theorem toUint64_toInt64 {x : Nat} (hx : x < 2 ^ 64) : toUint64 (toInt64 x) = x := by
  unfold toUint64 toInt64
  split <;> omega

theorem isInt64_wrapInt64 (x : Int) : IsInt64 (wrapInt64 x) := by
  unfold IsInt64 wrapInt64
  omega

/-- Adding a wrapped difference wraps back to the value. -/
theorem wrapInt64_add_wrapInt64_sub {a b : Int} (hb : IsInt64 b) :
    wrapInt64 (a + wrapInt64 (b - a)) = b := by
  unfold IsInt64 at hb
  unfold wrapInt64
  omega

theorem toInt64_of_lt {x : Nat} (hx : x < 2 ^ 63) : toInt64 x = x := by
  rw [toInt64, if_pos hx]

end Int64

/-! ## The decoding buffer -/

/-- `encoding.ErrInvalidSize`. -/
def errInvalidSize : String := "invalid size"

/-- `encoding.Decbuf`: the bytes still to read and the first error. -/
structure Decbuf where
  b : List UInt8
  e : Option String
  deriving DecidableEq, Repr

namespace Decbuf

/-- `Decbuf.Uvarint64`. -/
def uvarint64 (d : Decbuf) : Decbuf × Nat :=
  if d.e.isSome then (d, 0)
  else
    let r := uvarint d.b
    if r.2 < 1 then ({ d with e := some errInvalidSize }, 0) else ({ d with b := d.b.drop r.2.toNat }, r.1)

/-- `Decbuf.Uvarint`: the value as a Go `int`. -/
def uvarint' (d : Decbuf) : Decbuf × Int :=
  ((d.uvarint64).1, toInt64 (d.uvarint64).2)

/-- `Decbuf.Varint64`. -/
def varint64 (d : Decbuf) : Decbuf × Int :=
  ((d.uvarint64).1, unzigzag (d.uvarint64).2)

/-- A failed buffer stays failed and reads zero. -/
theorem uvarint64_of_err {d : Decbuf} (h : d.e.isSome) : d.uvarint64 = (d, 0) := by
  simp [uvarint64, h]

theorem uvarint64_putUvarint {x : Nat} (hx : x < 2 ^ 64) (rest : List UInt8) :
    (⟨putUvarint x ++ rest, none⟩ : Decbuf).uvarint64 = (⟨rest, none⟩, x) := by
  have hlen : (1 : Int) ≤ (putUvarint x).length := by
    have := List.length_pos_iff.mpr (putUvarint_ne_nil x)
    omega
  simp [uvarint64, uvarint_putUvarint hx, show ¬((putUvarint x).length : Int) < 1 by omega]

theorem uvarint'_putUvarint {x : Nat} (hx : x < 2 ^ 64) (rest : List UInt8) :
    (⟨putUvarint x ++ rest, none⟩ : Decbuf).uvarint' = (⟨rest, none⟩, toInt64 x) := by
  simp [uvarint', uvarint64_putUvarint hx]

theorem varint64_putVarint {x : Int} (hx : IsInt64 x) (rest : List UInt8) :
    (⟨putVarint x ++ rest, none⟩ : Decbuf).varint64 = (⟨rest, none⟩, x) := by
  simp [varint64, putVarint, uvarint64_putUvarint (zigzag_lt hx), unzigzag_zigzag]

end Decbuf

end GoBinary
