import MusicMacro.Number.Binary

/-!
# Scalars

Seconds, frequencies and samples are scalars. Everything that is computed with them is written
once, for any scalar type: floating point of 64 or 32 bits when music is made, and the rational
numbers when it is reasoned about.

Comparisons are those of floating point: a number that is not a number compares with nothing, so
`¬ a < b` does not mean `b ≤ a`.

* `Scalar` — the arithmetic, with the ways to make a count of a number.
* `Circular` — what an oscillator needs to go round a circle.
* `Tuned` — the pitches of equal temperament.
-/

namespace MusicMacro

/-- The arithmetic of seconds, frequencies and samples. -/
class Scalar (α : Type) extends
    Zero α, One α, Add α, Sub α, Mul α, Div α, Neg α, NatCast α, LT α, LE α where
  decidableLT : DecidableLT α
  decidableLE : DecidableLE α
  /-- Neither infinite nor undefined. -/
  isFinite : α → Bool
  /-- The remainder of a division whose quotient is cut toward zero. -/
  remainder : α → α → α
  /-- The nearest natural number, a half upwards; zero for what lies below. -/
  nearest : α → Nat
  /-- The least natural number that is not smaller. -/
  ceiling : α → Nat
  /-- The greatest natural number that is not greater; zero for what lies below. -/
  floor : α → Nat
  /-- The count that stands for all that are too large, if counts are bounded. -/
  lastCount : Option Nat

instance Scalar.instDecidableLT {α : Type} [Scalar α] (a b : α) : Decidable (a < b) :=
  Scalar.decidableLT a b

instance Scalar.instDecidableLE {α : Type} [Scalar α] (a b : α) : Decidable (a ≤ b) :=
  Scalar.decidableLE a b

/-- The functions on a circle of which an oscillator draws its waves. -/
class Circular (α : Type) where
  /-- Half the length of a circle of radius one. -/
  pi : α
  /-- The sine of an angle. -/
  sine : α → α

/-- Equal temperament. -/
class Tuned (α : Type) where
  /-- The frequency ratio of an interval, given in semitones: an octave is twelve and doubles. -/
  ratio : Int → α

/-- Takes a number of seconds, of hertz or of amplitude to the type of the samples. -/
class Narrow (α β : Type) where
  narrow : α → β

namespace Scalar

variable {α : Type} [Scalar α]

/-- The larger of two numbers, and of equal ones, such as the two zeros, the second. One that is
not a number gives way to the other. -/
def larger (a b : α) : α := if b < a then a else if b ≤ b then b else a

/-- The smaller of two numbers, and of equal ones the second. One that is not a number gives way to
the other. -/
def smaller (a b : α) : α := if a < b then a else if b ≤ b then b else a

/-- The distance from zero. -/
def magnitude (a : α) : α := if a < 0 then -a else a

/-- Whether this is a number at all. -/
def isNumber (a : α) : Bool := decide (a ≤ a)

/-- A count, or the last one if it is too large. -/
def cap (α : Type) [Scalar α] (n : Nat) : Nat :=
  match lastCount α with
  | some last => min n last
  | none => n

/-- The index of the sample at a time. -/
def sampleIndex (time : α) (rate : Nat) : Nat := nearest (time * (rate : α))

end Scalar

/-! ## Rational numbers -/

/-- The remainder of a division whose quotient is cut toward zero. -/
def Exact.remainder (a b : Rat) : Rat :=
  let q := a / b
  a - b * (if 0 ≤ q then q.floor else q.ceil : Int)

instance : Scalar Rat where
  zero := 0
  one := 1
  natCast := Nat.cast
  decidableLT := inferInstance
  decidableLE := inferInstance
  isFinite _ := true
  remainder := Exact.remainder
  nearest a := (a + 1 / 2).floor.toNat
  ceiling a := a.ceil.toNat
  floor a := a.floor.toNat
  lastCount := none

instance : Narrow Rat Rat := ⟨id⟩

/-! ## Floating point -/

/-- The exact remainder. The common case, less than one division beyond the divisor, is a
subtraction, and that is exact too. -/
def Single.remainder (a b : Float32) : Float32 :=
  if a.abs < b.abs then a
  else if a.abs < b.abs + b.abs then if a < 0 then a + b.abs else a - b.abs
  else
    match Binary.ofSingle a, Binary.ofSingle b with
    | .finite negative m e, .finite _ n f =>
      if n = 0 then 0 / 0
      else
        let (r, least) := Binary.remainder m e n f
        let x := (Float32.ofNat r).scaleB least
        if negative then -x else x
    | .finite .., .infinite _ => a
    | _, _ => 0 / 0

/-- The exact remainder, as for 32 bits. -/
def Double.remainder (a b : Float) : Float :=
  if a.abs < b.abs then a
  else if a.abs < b.abs + b.abs then if a < 0 then a + b.abs else a - b.abs
  else
    match Binary.ofDouble a, Binary.ofDouble b with
    | .finite negative m e, .finite _ n f =>
      if n = 0 then 0 / 0
      else
        let (r, least) := Binary.remainder m e n f
        let x := (Float.ofNat r).scaleB least
        if negative then -x else x
    | .finite .., .infinite _ => a
    | _, _ => 0 / 0

instance : Scalar Float where
  zero := 0
  one := 1
  natCast := Float.ofNat
  decidableLT := inferInstance
  decidableLE := inferInstance
  isFinite := Float.isFinite
  remainder := Double.remainder
  nearest a := (Binary.ofDouble a).nearest
  ceiling a := a.ceil.toUInt64.toNat
  floor a := a.toUInt64.toNat
  lastCount := some greatestWord

instance : Scalar Float32 where
  zero := 0
  one := 1
  natCast := Float32.ofNat
  decidableLT := inferInstance
  decidableLE := inferInstance
  isFinite := Float32.isFinite
  remainder := Single.remainder
  nearest a := (Binary.ofSingle a).nearest
  ceiling a := a.ceil.toUInt64.toNat
  floor a := a.toUInt64.toNat
  lastCount := some greatestWord

instance : Narrow Float Float32 := ⟨Float.toFloat32⟩

/-- The number of 32 bits that is nearest to the circle constant. -/
def Single.pi : Float32 := Float32.ofBits 0x40490fdb

instance : Circular Float32 := ⟨Single.pi, Float32.sin⟩

instance : Tuned Float := ⟨fun n => Float.pow 2 (Float.ofInt n / 12)⟩

end MusicMacro
