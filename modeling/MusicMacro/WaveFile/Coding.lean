import MusicMacro.Number.LittleEndian
import MusicMacro.Number.Scalar
import MusicMacro.WaveFile.Chunk

/-!
# The coding of samples

How a sample between -1 and 1 is written in a wave file: as an integer of some width, scaled so
that the greatest one is 1, or as a floating-point number. What lies beyond that range is cut off
when it is read; the least integer, which has no opposite, counts as -1 too.

* `Coding.value` — the sample that some bytes stand for.
-/

namespace MusicMacro

/-- A scalar type that has the value of every finite floating-point number of 32 bits. -/
class Dyadic (α : Type) where
  /-- A mantissa times a power of two, or its opposite if `negative`. -/
  dyadic (negative : Bool) (mantissa : Nat) (exponent : Int) : α

instance : Dyadic Rat where
  dyadic negative mantissa exponent :=
    let x : Rat := (mantissa * Binary.twoTo exponent.toNat : Nat) /
      (Binary.twoTo (-exponent).toNat : Nat)
    if negative then -x else x

instance : Dyadic Float32 where
  dyadic negative mantissa exponent :=
    let x := (Float32.ofNat mantissa).scaleB exponent
    if negative then -x else x

/-- A way to write samples. -/
inductive Coding
  /-- One byte, and 128 stands for silence. -/
  | unsigned8
  | signed16
  | signed24
  | float32
deriving DecidableEq, Repr

namespace Coding

/-- The number of bytes of a sample. -/
def width : Coding → Nat
  | unsigned8 => 1
  | signed16 => 2
  | signed24 => 3
  | float32 => 4

/-- The code of integers. -/
def integerCode : Nat := 1

/-- The code of floating-point numbers. -/
def floatCode : Nat := 3

/-- The coding with a code and a number of bits. -/
def ofCode (code bits : Nat) : Except WaveFileError Coding :=
  if code = integerCode then
    match bits with
    | 8 => .ok unsigned8
    | 16 => .ok signed16
    | 24 => .ok signed24
    | _ => .error .badIntegerDepth
  else if code = floatCode then
    if bits = 32 then .ok float32 else .error .badFloatDepth
  else .error .unknownCoding

variable {σ : Type} [Scalar σ]

/-- Cuts off what lies beyond the range from -1 to 1. What is no number becomes -1. -/
def clip (x : σ) : σ := Scalar.smaller (Scalar.larger x (-1)) 1

/-- An integer as a scalar. -/
def ofInteger (n : Int) : σ := if n < 0 then -(n.natAbs : σ) else (n.natAbs : σ)

/-- The sample that an integer stands for, when the greatest one stands for 1. -/
def scaled (n : Int) (greatest : Nat) : σ := clip (ofInteger n / (greatest : σ))

/-- The sample that a floating-point number stands for. -/
def ofBinary [Dyadic σ] : Binary → σ
  | .nan => -1
  | .infinite negative => if negative then -1 else 1
  | .finite negative mantissa exponent => clip (Dyadic.dyadic negative mantissa exponent)

/-- The sample that some bytes stand for. Integers of 24 bits are the upper bits of one of 32, yet
the greatest integer is that of 24 bits. -/
def value [Dyadic σ] (c : Coding) (bs : List UInt8) : σ :=
  match c with
  | unsigned8 => scaled ((LittleEndian.value bs : Int) - 128) 127
  | signed16 => scaled (LittleEndian.signedValue bs) 32767
  | signed24 => scaled (256 * LittleEndian.signedValue bs) 0x7fffff
  | float32 => ofBinary (Binary.ofBits Binary.single (LittleEndian.value bs))

/-- The samples that bytes stand for; the bytes of an incomplete one are left over. -/
def values [Dyadic σ] (c : Coding) (bs : Bytes) : Array σ :=
  Array.ofFn fun i : Fin (bs.size / c.width) =>
    c.value (bs.extract (i * c.width) (i * c.width + c.width)).toList

theorem size_values [Dyadic σ] (c : Coding) (bs : Bytes) :
    (c.values bs : Array σ).size = bs.size / c.width := by
  simp [values]

end Coding

end MusicMacro
