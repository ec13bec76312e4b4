import MusicMacro.Proofs.Order.Rounding

/-!
# Infinite floating point numbers

A sum of numbers that are not below zero may be too large and become infinite. It stays there, and
no number of 64 bits is greater.

* `Double.eq_infinity` — what is not finite, and no less than a finite number, is the one infinity.
* `Double.unpack_add_infinity` — it takes what is added to it.
* The instance of `Scalar.Extended` for `Float`.
-/

namespace MusicMacro

open Float.Model UnpackedFloat

namespace Double

theorem place_le_infinity (a : UnpackedFloat) : place a ≤ place (.infinity .positive) := by
  rcases a with (_ | _) | _ | (_ | _) | ⟨_ | _, m, e, hm⟩ <;> simp [place, Prod.Lex.toLex_le_toLex]

/-- What is not finite, and no less than a finite number, is the greatest number. -/
theorem eq_infinity {a b : UnpackedFloat} (ha : a.isFinite) (h : place a ≤ place b)
    (hnan : b.isNaN = false) (hb : b.isFinite = false) : b = .infinity .positive := by
  cases b with
  | notANumber => cases hnan
  | zero s => cases hb
  | finite s m e hm => cases hb
  | infinity s =>
    cases s with
    | positive => rfl
    | negative =>
      rcases a with _ | _ | (_ | _) | ⟨_ | _, m, e, hm⟩
      case infinity | notANumber => cases ha
      all_goals simp [place, Prod.Lex.toLex_le_toLex] at h

theorem place_lt_infinity {a : UnpackedFloat} (ha : a.isFinite) :
    place a < place (.infinity .positive) := by
  rcases a with _ | _ | _ | ⟨_ | _, m, e, hm⟩
  case infinity | notANumber => cases ha
  all_goals simp [place, Prod.Lex.toLex_lt_toLex]

/-- Finite, or the greatest number. -/
def IsUpward (a : UnpackedFloat) : Prop := a.isFinite ∨ a = .infinity .positive

theorem isUpward {a b : UnpackedFloat} (ha : a.isFinite) (h : place a ≤ place b)
    (hnan : b.isNaN = false) : IsUpward b := by
  cases hb : b.isFinite with
  | true => exact .inl hb
  | false => exact .inr (eq_infinity ha h hnan hb)

/-- The greatest number takes what is added to it, and is taken where it is added. -/
theorem add_infinity {a b : UnpackedFloat} (ha : IsUpward a) (hb : IsUpward b)
    (h : a = .infinity .positive ∨ b = .infinity .positive) :
    UnpackedFloat.add Format.binary64 a b = .infinity .positive := by
  rcases h with rfl | rfl
  · rcases hb with hb | rfl
    · cases b with
      | notANumber | infinity s => cases hb
      | zero s => rfl
      | finite s m e hm => rfl
    · rfl
  · rcases ha with ha | rfl
    · cases a with
      | notANumber | infinity s => cases ha
      | zero s => rfl
      | finite s m e hm => rfl
    · rfl

/-- So does the sum of two numbers of 64 bits. -/
theorem unpack_add_infinity {a b : Float} (ha : IsUpward a.toModel.unpack)
    (hb : IsUpward b.toModel.unpack)
    (h : a.toModel.unpack = .infinity .positive ∨ b.toModel.unpack = .infinity .positive) :
    (a + b).toModel.unpack = .infinity .positive := by
  have hadd := add_infinity ha hb h
  show UnpackedFloat.unpack Format.binary64 (UnpackedFloat.pack Format.binary64
    (UnpackedFloat.add Format.binary64 a.toModel.unpack b.toModel.unpack)) = _
  rw [hadd, UnpackedFloat.pack, unpack_packedInfinity]

theorem isFinite_zero : (Float.toModel 0).unpack.isFinite := by decide

end Double

open Double

instance : Scalar.Extended Float where
  isFinite_zero := by decide
  zero_le_neg_zero := by decide
  le_add_of_le := by
    intro a b c ha hab hc
    obtain ⟨-, hnanb, hb⟩ := le_iff_place.1 hab
    obtain ⟨-, hnanc, hzero⟩ := le_iff_place.1 hc
    have hupb := isUpward ha hb hnanb
    have hupc := isUpward isFinite_zero hzero hnanc
    by_cases h : b.toModel.unpack = .infinity .positive ∨ c.toModel.unpack = .infinity .positive
    · refine le_iff_place.2 ⟨hnanb, ?_, ?_⟩ <;> rw [unpack_add_infinity hupb hupc h]
      · rfl
      · exact place_le_infinity _
    · rw [not_or] at h
      exact Scalar.Cumulative.le_add (hupb.resolve_right h.1) (hupc.resolve_right h.2) hc
  le_infinite := by
    intro a b ha hb hzero
    obtain ⟨-, hnanb, hzero⟩ := le_iff_place.1 hzero
    refine le_iff_place.2 ⟨isNumber_iff.1 ha, hnanb, ?_⟩
    rw [eq_infinity isFinite_zero hzero hnanb hb]
    exact place_le_infinity _
  not_infinite_le := by
    intro a b ha hb hzero hle
    obtain ⟨-, hnanb, hzero⟩ := le_iff_place.1 hzero
    obtain ⟨-, -, hle⟩ := le_iff_place.1 hle
    rw [eq_infinity isFinite_zero hzero hnanb hb] at hle
    exact absurd hle (not_le.2 (place_lt_infinity ha))

end MusicMacro
