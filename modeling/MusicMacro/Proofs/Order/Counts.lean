import MusicMacro.Proofs.Order.Rounding

/-!
# Counts of floating point numbers

A number of 64 bits is rounded to a count by its parts, which are what the bits are unpacked to.
Numbers are magnitudes here, in whole units of a power of two, and the count that is nearest to a
magnitude does not depend on the unit.

* `Double.ofDouble_eq` — the parts of a number are those to which it is unpacked.
* `Double.countOf_mono`, `Double.countOf_scale` — the count nearest to a magnitude.
* `Double.nearest_eq_count` — rounding to a count is rounding the magnitude.
* `Double.count_unpack_pack` — packing changes no count.
-/

namespace MusicMacro

open Float.Model UnpackedFloat

namespace Double

/-! ## Taking apart -/

/-- Whether a sign is that of the numbers below zero. -/
def isNegative : Sign → Bool
  | .negative => true
  | .positive => false

/-- The parts of a number that has been unpacked. -/
def parts : UnpackedFloat → Binary
  | .notANumber => .nan
  | .infinity s => .infinite (isNegative s)
  | .zero s => .finite (isNegative s) 0 (-1074)
  | .finite s m e _ => .finite (isNegative s) m e

theorem toNat_unpackMantissa (b : BitVec Format.binary64.numBits) :
    (unpackMantissa b).toNat = b.toNat % 2 ^ 52 := by
  show (b.toNat >>> 0) % 2 ^ 52 = _
  rw [Nat.shiftRight_zero]

theorem toNat_unpackExponent (b : BitVec Format.binary64.numBits) :
    (unpackExponent b).toNat = b.toNat / 2 ^ 52 % 2 ^ 11 := by
  show (b.toNat >>> 52) % 2 ^ 11 = _
  rw [Nat.shiftRight_eq_div_pow]

theorem isNegative_unpackSign (b : BitVec Format.binary64.numBits) :
    isNegative (Sign.ofBitVec (unpackSign b)) = decide (b.toNat / 2 ^ 63 % 2 = 1) := by
  have hbit : (unpackSign b).toNat = b.toNat / 2 ^ 63 % 2 := by
    show (b.toNat >>> 63) % 2 ^ 1 = _
    rw [Nat.shiftRight_eq_div_pow]
  rw [← hbit, Sign.ofBitVec]
  by_cases hzero : unpackSign b = 0#1
  · rw [if_pos hzero, hzero]
    rfl
  · rw [if_neg hzero]
    have hne : (unpackSign b).toNat ≠ 0 := fun h => hzero (BitVec.eq_of_toNat_eq h)
    have hlt : (unpackSign b).toNat < 2 := (unpackSign b).isLt
    exact (decide_eq_true (by omega : (unpackSign b).toNat = 1)).symm

/-- The bits of a number are unpacked to its parts. -/
theorem parts_unpack (b : BitVec Format.binary64.numBits) :
    Binary.ofBits Binary.double b.toNat = parts (UnpackedFloat.unpack Format.binary64 b) := by
  have hbits : Binary.ofBits Binary.double b.toNat =
      if (unpackExponent b).toNat = 2047 then
        if (unpackMantissa b).toNat = 0 then
          .infinite (isNegative (Sign.ofBitVec (unpackSign b)))
        else .nan
      else if (unpackExponent b).toNat = 0 then
        .finite (isNegative (Sign.ofBitVec (unpackSign b))) (unpackMantissa b).toNat (-1074)
      else .finite (isNegative (Sign.ofBitVec (unpackSign b)))
        (2 ^ 52 + (unpackMantissa b).toNat) (-1074 + ((unpackExponent b).toNat - 1)) := by
    rw [toNat_unpackMantissa, toNat_unpackExponent, isNegative_unpackSign]
    rfl
  have hbias : ((Format.binary64.exponentBias : Nat) : Int) = 1023 := rfl
  have hgreatest : unpackExponent b = -1#11 ↔ (unpackExponent b).toNat = 2047 :=
    BitVec.toNat_inj.symm
  have hleast : unpackExponent b = 0#11 ↔ (unpackExponent b).toNat = 0 := BitVec.toNat_inj.symm
  have hmantissa : unpackMantissa b = 0#52 ↔ (unpackMantissa b).toNat = 0 := BitVec.toNat_inj.symm
  rw [hbits, UnpackedFloat.unpack]
  dsimp only
  by_cases hlast : unpackExponent b = -1#11
  · rw [if_pos hlast, if_pos (hgreatest.1 hlast)]
    by_cases hzero : unpackMantissa b = 0#52
    · rw [if_pos hzero, if_pos (hmantissa.1 hzero)]
      rfl
    · rw [if_neg hzero, if_neg (mt hmantissa.2 hzero)]
      rfl
  · rw [if_neg hlast, if_neg (mt hgreatest.2 hlast)]
    by_cases hfirst : unpackExponent b = 0#11
    · rw [if_pos hfirst, if_pos (hleast.1 hfirst)]
      by_cases hzero : unpackMantissa b = 0#52
      · rw [dif_pos hzero, hmantissa.1 hzero]
        rfl
      · rw [dif_neg hzero, parts, hleast.1 hfirst, hbias]
        rfl
    · rw [if_neg hfirst, if_neg (mt hleast.2 hfirst), parts, toNat_one_append, hbias]
      congr 1
      omega

theorem ofDouble_eq (a : Float) : Binary.ofDouble a = parts a.toModel.unpack := parts_unpack _

/-! ## Counts -/

/-- The count that is nearest to a magnitude in units of two to the power `-b`, a half upwards. -/
def countOf (b a : Nat) : Nat := min greatestWord ((2 * a + 2 ^ b) / 2 ^ (b + 1))

theorem countOf_mono (b : Nat) {a c : Nat} (h : a ≤ c) : countOf b a ≤ countOf b c :=
  min_le_min_left _ (Nat.div_le_div_right (Nat.add_le_add_right (Nat.mul_le_mul_left 2 h) _))

theorem countOf_zero (b : Nat) : countOf b 0 = 0 := by
  have hlt : 2 * 0 + 2 ^ b < 2 ^ (b + 1) := by
    have := Nat.two_pow_pos b
    rw [Nat.pow_succ]
    omega
  rw [countOf, Nat.div_eq_of_lt hlt]
  rfl

/-- In finer units it is the same count. -/
theorem countOf_scale (b a j : Nat) : countOf (b + j) (a * 2 ^ j) = countOf b a := by
  have hsum : 2 * (a * 2 ^ j) + 2 ^ (b + j) = (2 * a + 2 ^ b) * 2 ^ j := by ring
  have hunit : 2 ^ (b + j + 1) = 2 ^ (b + 1) * 2 ^ j := by ring
  rw [countOf, countOf, hsum, hunit, Nat.mul_div_mul_right _ _ (Nat.two_pow_pos j)]

/-- The count that is nearest to a number that has been unpacked. -/
def count : UnpackedFloat → Nat
  | .infinity .positive => greatestWord
  | .finite .positive m e _ => countOf 1074 (magnitude m e)
  | .infinity .negative | .finite .negative .. | .zero _ | .notANumber => 0

theorem nearest_finite {b : Nat} (m : Nat) {e : Int} (he : -b ≤ e) :
    (Binary.finite false m e).nearest = countOf b (scaled b m e) := by
  show min greatestWord (if e < 0 then (m + 2 ^ ((-e).toNat - 1)) / 2 ^ (-e).toNat
    else m * 2 ^ e.toNat) = _
  by_cases hneg : e < 0
  · obtain ⟨d, hd⟩ : ∃ d : Nat, e = -(d + 1 : Nat) := ⟨(-e).toNat - 1, by omega⟩
    have hplaces : (-e).toNat = d + 1 := by omega
    obtain ⟨j, hj⟩ : ∃ j : Nat, b = d + 1 + j := Nat.exists_eq_add_of_le (by omega)
    have hscale : (e + b).toNat = j := by omega
    have hsum : 2 * m + 2 ^ (d + 1) = 2 * (m + 2 ^ d) := by ring
    have hunit : 2 ^ (d + 1 + 1) = 2 * 2 ^ (d + 1) := Nat.pow_succ'
    rw [if_pos hneg, hplaces, Nat.add_sub_cancel, scaled, hscale, hj, countOf_scale, countOf, hsum,
      hunit, Nat.mul_div_mul_left _ _ Nat.two_pos]
  · obtain ⟨d, rfl⟩ := Int.eq_ofNat_of_zero_le (not_lt.1 hneg)
    have hscale : ((d : Int) + b).toNat = d + b := by omega
    have h := countOf_scale 0 (m * 2 ^ d) b
    rw [Nat.zero_add] at h
    rw [if_neg hneg, scaled, hscale, Nat.pow_add, ← Nat.mul_assoc, h, countOf, Int.toNat_natCast]
    congr 1
    omega

/-- Rounding to a count is what the parts say. -/
theorem nearest_parts {a : UnpackedFloat} (h : a.isFinite → IsCanonical a) :
    (parts a).nearest = count a := by
  cases a with
  | notANumber => rfl
  | infinity s => cases s <;> rfl
  | zero s =>
    cases s with
    | negative => rfl
    | positive =>
      have hzero := nearest_finite (b := 1074) 0 (e := -1074) le_rfl
      rw [scaled, Nat.zero_mul, countOf_zero] at hzero
      exact hzero
  | finite s m e hm =>
    cases s with
    | negative => rfl
    | positive =>
      cases h rfl with
      | finite _ _ hcanonical => exact nearest_finite (b := 1074) m hcanonical.least_le

theorem nearest_eq_count (a : Float) : Scalar.nearest a = count a.toModel.unpack := by
  show (Binary.ofDouble a).nearest = _
  rw [ofDouble_eq]
  exact nearest_parts isCanonical_unpack

theorem countOf_le (b a : Nat) : countOf b a ≤ greatestWord := min_le_left _ _

/-- What is too large for a count has the greatest one. -/
theorem countOf_scaled {b m : Nat} (hm : 0 < m) {e : Int} (h : 64 ≤ e) :
    countOf b (scaled b m e) = greatestWord := by
  have hlarge : 2 ^ 64 * 2 ^ b ≤ scaled b m e := by
    rw [scaled, ← Nat.pow_add]
    exact (Nat.pow_le_pow_right Nat.two_pos (by omega)).trans (Nat.le_mul_of_pos_left _ hm)
  have hword : greatestWord * 2 ^ (b + 1) ≤ 2 ^ 64 * 2 ^ b * 2 := by
    rw [Nat.pow_succ, ← Nat.mul_assoc]
    exact Nat.mul_le_mul_right _ (Nat.mul_le_mul_right _ (by decide))
  refine min_eq_left ((Nat.le_div_iff_mul_le (Nat.two_pow_pos _)).2 ?_)
  omega

theorem count_le (a : UnpackedFloat) : count a ≤ greatestWord := by
  rcases a with (_ | _) | _ | _ | ⟨_ | _, m, e, hm⟩ <;>
    first | exact Nat.zero_le _ | exact le_rfl | exact countOf_le _ _

/-- Packing changes no count: what is too large becomes infinite, and had the greatest count
before. -/
theorem count_unpack_pack {a : UnpackedFloat} (h : a.isFinite → IsCanonical a) :
    count (UnpackedFloat.unpack Format.binary64 (UnpackedFloat.pack Format.binary64 a)) =
      count a := by
  cases a with
  | notANumber => decide
  | infinity s => rw [UnpackedFloat.pack, unpack_packedInfinity]
  | zero s => rw [UnpackedFloat.pack, unpack_packedZero]
  | finite s m e hm =>
    cases h rfl with
    | finite _ _ hcanonical =>
      rw [unpack_pack_finite s hm hcanonical]
      split
      · rfl
      · rename_i hlarge
        cases s with
        | negative => rfl
        | positive =>
          have hgreatest : countOf 1074 (scaled 1074 m e) = greatestWord :=
            countOf_scaled hm (by omega)
          exact hgreatest.symm

end Double

end MusicMacro
