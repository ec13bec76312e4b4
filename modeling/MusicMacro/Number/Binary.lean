/-!
# Binary floating point, taken apart

A finite floating-point number is a mantissa times a power of two. Its decimal text, its exact
remainders and the count nearest to it are computed from these two integers.

* `Binary.ofDouble`, `Binary.ofSingle` — the parts of a number of 64 or 32 bits.
* `Binary.remainder` — the remainder of two such numbers over the smaller of their exponents.
* `Binary.nearest` — the count of 64 bits that is nearest to a number.
-/

namespace MusicMacro

/-- The greatest count of 64 bits. -/
def greatestWord : Nat := 0xffffffffffffffff

/-- The parts of a floating-point number. -/
inductive Binary
  /-- Not a number. -/
  | nan
  /-- An infinity. -/
  | infinite (negative : Bool)
  /-- `mantissa * 2 ^ exponent`, or its opposite if `negative`. -/
  | finite (negative : Bool) (mantissa : Nat) (exponent : Int)
deriving DecidableEq, Repr

namespace Binary

/-- The layout of the bits: a sign, `width` bits of exponent, and `fraction` bits of mantissa below
the leading one. The smallest numbers have the exponent `least`. -/
structure Layout where
  fraction : Nat
  width : Nat
  least : Int
deriving DecidableEq, Repr

/-- The layout of 64 bits. -/
def double : Layout := ⟨52, 11, -1074⟩

/-- The layout of 32 bits. -/
def single : Layout := ⟨23, 8, -149⟩

/-- Two to a power. -/
def twoTo (n : Nat) : Nat := Nat.pow 2 n

/-- Takes a bit pattern apart. -/
def ofBits (l : Layout) (bits : Nat) : Binary :=
  let m := bits % twoTo l.fraction
  let e := bits / twoTo l.fraction % twoTo l.width
  let negative := bits / twoTo (l.fraction + l.width) % 2 = 1
  if e = twoTo l.width - 1 then if m = 0 then infinite negative else nan
  else if e = 0 then finite negative m l.least
  else finite negative (twoTo l.fraction + m) (l.least + (e - 1))

/-- The parts of a number of 64 bits. -/
def ofDouble (x : Float) : Binary := ofBits double x.toBits.toNat

/-- The parts of a number of 32 bits. -/
def ofSingle (x : Float32) : Binary := ofBits single x.toBits.toNat

/-- The remainder of `m * 2 ^ e` divided by `n * 2 ^ f`, as a multiple of two to the smaller of
the two exponents, which comes with it. -/
def remainder (m : Nat) (e : Int) (n : Nat) (f : Int) : Nat × Int :=
  let least := min e f
  (m * twoTo (e - least).toNat % (n * twoTo (f - least).toNat), least)

/-- The nearest natural number, a half upwards; zero for what lies below, and the greatest count for
what lies above all counts. -/
def nearest : Binary → Nat
  | nan => 0
  | infinite negative => if negative then 0 else greatestWord
  | finite negative m e =>
    if negative then 0
    else min greatestWord
      (if e < 0 then (m + twoTo ((-e).toNat - 1)) / twoTo (-e).toNat else m * twoTo e.toNat)

end Binary

end MusicMacro
