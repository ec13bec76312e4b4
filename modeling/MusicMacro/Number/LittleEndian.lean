/-!
# Little-endian numbers

A number as a fixed count of bytes, the lowest byte first. Negative numbers are written in two's
complement.

* `value_bytes` — reading gives the number back, as far as it fits.
* `signedValue_signedBytes` — the same for two's complement.
-/

namespace MusicMacro

namespace LittleEndian

/-- The number of values that some bytes can have. -/
def valueCount : Nat → Nat
  | 0 => 1
  | width + 1 => 256 * valueCount width

/-- The lowest bytes of a number. -/
def bytes : Nat → Nat → List UInt8
  | 0, _ => []
  | width + 1, n => UInt8.ofNat n :: bytes width (n / 256)

/-- The number that bytes stand for. -/
def value : List UInt8 → Nat
  | [] => 0
  | b :: bs => b.toNat + 256 * value bs

theorem valueCount_pos (width : Nat) : 0 < valueCount width := by
  induction width with
  | zero => decide
  | succ width ih => rw [valueCount]; omega

theorem length_bytes (width n : Nat) : (bytes width n).length = width := by
  induction width generalizing n with
  | zero => rfl
  | succ width ih => simp [bytes, ih]

theorem value_bytes (width n : Nat) : value (bytes width n) = n % valueCount width := by
  induction width generalizing n with
  | zero => rw [bytes, value, valueCount, Nat.mod_one]
  | succ width ih =>
    have h : (UInt8.ofNat n).toNat = n % 256 := UInt8.toNat_ofNat
    rw [bytes, value, ih, h, valueCount, Nat.mod_mul]

/-- The lowest bytes of a number in two's complement. -/
def signedBytes (width : Nat) (n : Int) : List UInt8 :=
  bytes width (n % (valueCount width : Int)).toNat

/-- The number that bytes stand for in two's complement. -/
def signedValue (bs : List UInt8) : Int := Int.bmod (value bs) (valueCount bs.length)

theorem length_signedBytes (width : Nat) (n : Int) : (signedBytes width n).length = width :=
  length_bytes ..

theorem signedValue_signedBytes (width : Nat) (n : Int) :
    signedValue (signedBytes width n) = Int.bmod n (valueCount width) := by
  have hpos := valueCount_pos width
  have hnonneg : 0 ≤ n % (valueCount width : Int) := Int.emod_nonneg _ (by omega)
  have hlt : n % (valueCount width : Int) < valueCount width := Int.emod_lt_of_pos _ (by omega)
  have hmod : (n % (valueCount width : Int)).toNat % valueCount width =
      (n % (valueCount width : Int)).toNat := Nat.mod_eq_of_lt (by omega)
  rw [signedValue, length_signedBytes, signedBytes, value_bytes, hmod, Int.toNat_of_nonneg hnonneg,
    Int.emod_bmod]

end LittleEndian

end MusicMacro
