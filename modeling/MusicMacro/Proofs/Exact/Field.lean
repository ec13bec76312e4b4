import Mathlib.Algebra.Order.Floor.Ring
import Mathlib.Data.Rat.Floor
import Mathlib.Tactic.Linarith
import Mathlib.Tactic.Positivity
import MusicMacro.Proofs.Order

/-!
# Exact arithmetic

Nothing is rounded in an ordered field. What is exact need not be rational: a sine is not, as a
rule, and neither is the circle constant. So statements about exact sounds are for all ordered
fields in which numbers have a whole part, the rational and the real numbers among them.

* `Scalar.ofField` — the scalar operations of an ordered field.
* `Scalar.ofField_rat` — those of the rational numbers are the ones that compute.
* `Scalar.remainder_mem` — the remainder of a number that is not negative.
-/

namespace MusicMacro.Scalar

section

variable (K : Type) [Field K] [LinearOrder K] [FloorRing K]

/-- Arithmetic in which nothing is rounded. -/
@[reducible]
def ofField : Scalar K where
  decidableLT := inferInstance
  decidableLE := inferInstance
  isFinite _ := true
  remainder a b := a - b * (if 0 ≤ a / b then ⌊a / b⌋ else ⌈a / b⌉ : Int)
  nearest a := ⌊a + 1 / 2⌋.toNat
  ceiling a := ⌈a⌉.toNat
  floor a := ⌊a⌋.toNat
  lastCount := none

/-- Nor is anything rounded on the way to the samples. -/
@[reducible]
def narrowSelf : Narrow K K := ⟨id⟩

end

/-- With rational numbers it is what computes. -/
theorem ofField_rat : ofField Rat = instScalarRat := by
  have hceil (a : Rat) : ⌈a⌉ = a.ceil := (Rat.ceil_eq_neg_floor_neg a).symm
  unfold ofField instScalarRat
  congr 1
  · funext a b
    rw [Exact.remainder, hceil]
    rfl
  · funext a
    rw [hceil]

section

attribute [local instance] ofField

variable {K : Type} [Field K] [LinearOrder K] [IsStrictOrderedRing K] [FloorRing K] {a b : K}

/-- What is left of a number that is not negative is less than the divisor, and not negative. -/
theorem remainder_mem (ha : 0 ≤ a) (hb : 0 < b) : 0 ≤ remainder a b ∧ remainder a b < b := by
  have hq : 0 ≤ a / b := by positivity
  have hle : (⌊a / b⌋ : K) * b ≤ a := (le_div_iff₀ hb).1 (Int.floor_le _)
  have hlt : a < (⌊a / b⌋ + 1 : K) * b := (div_lt_iff₀ hb).1 (Int.lt_floor_add_one _)
  show 0 ≤ a - b * (if 0 ≤ a / b then ⌊a / b⌋ else ⌈a / b⌉ : Int) ∧
    a - b * (if 0 ≤ a / b then ⌊a / b⌋ else ⌈a / b⌉ : Int) < b
  rw [if_pos hq]
  constructor <;> linarith

end

end MusicMacro.Scalar
