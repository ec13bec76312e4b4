import MusicMacro.Text.Digit

/-!
# Numerals

Numbers as they are written on a command line: whole numbers, and decimal numbers with a point and
an exponent.

* `Numeral.whole?` — a sign or none, and digits.
* `Double.ofText?` — a decimal number, an infinity, or the word for what is no number.
-/

namespace MusicMacro

namespace Numeral

/-- Splits a sign off; the answer tells whether it is a minus sign. -/
def splitSign : List Char → Bool × List Char
  | '-' :: cs => (true, cs)
  | '+' :: cs => (false, cs)
  | cs => (false, cs)

/-- Splits the digits at the head of a text from the rest. -/
def splitDigits (cs : List Char) : List Char × List Char :=
  (cs.takeWhile Char.isDigit, cs.dropWhile Char.isDigit)

/-- The number that digits write, if there are digits and nothing else. -/
def digits? (cs : List Char) : Option Nat :=
  if cs.isEmpty || !cs.all Char.isDigit then none else some (digitsValue cs)

/-- The number with a sign. -/
def signed (negative : Bool) (n : Nat) : Int := if negative then -n else n

/-- A sign or none, and digits. -/
def whole? (cs : List Char) : Option Int :=
  let (negative, cs) := splitSign cs
  (digits? cs).map (signed negative)

/-! ## Decimal numbers -/

/-- A number `mantissa * 10 ^ exponent`. -/
structure Decimal where
  mantissa : Nat
  exponent : Int
deriving DecidableEq, Repr

/-- The exponent after a mantissa; none is zero. -/
def exponent? : List Char → Option Int
  | [] => some 0
  | c :: cs => if c = 'e' ∨ c = 'E' then whole? cs else none

/-- Digits with a point somewhere or nowhere, of which there is at least one, and an exponent. -/
def decimal? (cs : List Char) : Option Decimal := do
  let (before, cs) := splitDigits cs
  let (after, cs) :=
    match cs with
    | '.' :: cs => splitDigits cs
    | cs => ([], cs)
  if (before ++ after).isEmpty then none
  else return ⟨digitsValue (before ++ after), (← exponent? cs) - after.length⟩

end Numeral

namespace Double

/-- The nearest number of 64 bits that is not negative. The exponents of those that are neither
zero nor infinite end long before the bounds here. -/
def ofDecimal (d : Numeral.Decimal) : Float :=
  let magnitude := (Nat.toDigits 10 d.mantissa).length + d.exponent
  if d.mantissa = 0 ∨ magnitude < -400 then 0
  else if 400 < magnitude then 1 / 0
  else Float.ofScientific d.mantissa (decide (d.exponent < 0)) d.exponent.natAbs

/-- The words for an infinity. -/
def infinityWords : List (List Char) := ["inf".toList, "infinity".toList]

/-- The word for what is no number. -/
def undefinedWord : List Char := "nan".toList

/-- The number that a text without a sign writes. -/
def magnitude? (cs : List Char) : Option Float :=
  let word := cs.map Char.toLower
  if infinityWords.contains word then some (1 / 0)
  else if word = undefinedWord then some (0 / 0)
  else (Numeral.decimal? cs).map ofDecimal

/-- The number that a text writes. -/
def ofText? (cs : List Char) : Option Float :=
  let (negative, cs) := Numeral.splitSign cs
  (magnitude? cs).map fun x => if negative then -x else x

end Double

end MusicMacro
