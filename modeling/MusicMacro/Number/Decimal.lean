import MusicMacro.Number.Binary

/-!
# Decimal text

Numbers are written with the fewest digits that read back as the same number, never with an
exponent and without a point if they are whole, or else with a fixed number of places.

The fewest digits are found on grids of powers of ten. A number of the format stands for an
interval of the real line; the coarsest grid with a point in that interval wins, and on it the
point that is nearest. A tie between two points of a grid goes to the one of greater magnitude,
whereas a fixed number of places rounds ties to even.

* `roundedQuotient_close` — rounding a quotient moves it by half a unit at most.
-/

namespace MusicMacro

/-! ## Rounding -/

/-- The whole number that is nearest to a quotient, and the even one of two that are. -/
def roundedQuotient (n d : Nat) : Nat :=
  let q := n / d
  let twice := 2 * (n % d)
  if twice < d ∨ twice = d ∧ q % 2 = 0 then q else q + 1

theorem roundedQuotient_close (n : Nat) {d : Nat} (h : 0 < d) :
    2 * (roundedQuotient n d * d) ≤ 2 * n + d ∧ 2 * n ≤ 2 * (roundedQuotient n d * d) + d := by
  have hdm := Nat.div_add_mod n d
  have hlt := Nat.mod_lt n h
  have hcomm : n / d * d = d * (n / d) := Nat.mul_comm ..
  have hsucc : (n / d + 1) * d = d * (n / d) + d := by rw [Nat.succ_mul, hcomm]
  simp only [roundedQuotient]
  split <;> omega

namespace Decimal

/-! ## The fewest digits -/

/-- Ten to a power. -/
def tenTo (n : Nat) : Nat := Nat.pow 10 n

/-- The numerator and the denominator of `2 ^ e / 10 ^ k`. -/
def scale (e k : Int) : Nat × Nat :=
  (Binary.twoTo e.toNat * tenTo (-k).toNat, Binary.twoTo (-e).toNat * tenTo k.toNat)

/-- The points next to `m * 2 ^ e` on the grid of multiples of `10 ^ k` that stand for it, the
nearer one first, and of two equally near ones the greater. Below a power of two, other than the
smallest numbers, the format is twice as dense. The ends of the interval belong to it if the
mantissa is even. -/
def gridPoints (l : Binary.Layout) (m : Nat) (e k : Int) : List Nat :=
  let (n, d) := scale (e - 2) k
  let low := 4 * m - (if m = Binary.twoTo l.fraction ∧ l.least < e then 1 else 2)
  let high := 4 * m + 2
  let inside (p : Nat) : Bool :=
    if m % 2 = 0 then low * n ≤ p * d && p * d ≤ high * n else low * n < p * d && p * d < high * n
  let below := 4 * m * n / d
  let isLower := 2 * (4 * m * n % d) < d
  (if isLower then [below, below + 1] else [below + 1, below]).filter inside

/-- The coarsest grid with a point, from the grid of `10 ^ k` downwards. -/
def coarsest (l : Binary.Layout) (m : Nat) (e : Int) : Nat → Int → Nat × Int
  | 0, k => (m, k)
  | fuel + 1, k =>
    match gridPoints l m e k with
    | p :: _ => (p, k)
    | [] => coarsest l m e fuel (k - 1)

/-- The digits `p` and the exponent `k` of the shortest decimal `p * 10 ^ k` that stands for
`m * 2 ^ e`. No format here needs more than 17 digits. -/
def shortest (l : Binary.Layout) (m : Nat) (e : Int) : Nat × Int :=
  let magnitude := (((Nat.log2 m : Int) + e) * 30103).fdiv 100000
  coarsest l m e 24 (magnitude + 2)

/-! ## Text -/

/-- The digits of a whole number. -/
def digits (n : Nat) : List Char := Nat.toDigits 10 n

/-- Digits with a point before the last `places` of them. -/
def withPoint (ds : List Char) (places : Nat) : List Char :=
  let ds := List.replicate (places + 1 - ds.length) '0' ++ ds
  if places = 0 then ds
  else ds.take (ds.length - places) ++ '.' :: ds.drop (ds.length - places)

/-- The number `p * 10 ^ k` without an exponent. -/
def positional (p : Nat) (k : Int) : List Char :=
  withPoint (digits p ++ List.replicate k.toNat '0') (-k).toNat

/-- A minus sign in front of what is negative. -/
def signed (negative : Bool) (ds : List Char) : String :=
  String.ofList (if negative then '-' :: ds else ds)

/-- The shortest text of a number. -/
def text (l : Binary.Layout) (b : Binary) : String :=
  match b with
  | .nan => "NaN"
  | .infinite negative => signed negative ['i', 'n', 'f']
  | .finite negative 0 _ => signed negative ['0']
  | .finite negative m e =>
    let (p, k) := shortest l m e
    signed negative (positional p k)

/-- The text of a number with a fixed number of places. A tie goes to the even neighbour. -/
def fixedText (places : Nat) (b : Binary) : String :=
  match b with
  | .nan => "NaN"
  | .infinite negative => signed negative ['i', 'n', 'f']
  | .finite negative m e =>
    let (n, d) := scale e (-places)
    signed negative (withPoint (digits (roundedQuotient (m * n) d)) places)

end Decimal

/-- The shortest text of a number of 64 bits. -/
def Double.text (x : Float) : String := Decimal.text Binary.double (Binary.ofDouble x)

/-- The text of a number of 64 bits with a fixed number of places. -/
def Double.fixedText (places : Nat) (x : Float) : String :=
  Decimal.fixedText places (Binary.ofDouble x)

/-- The shortest text of a number of 32 bits. -/
def Single.text (x : Float32) : String := Decimal.text Binary.single (Binary.ofSingle x)

end MusicMacro
