import MusicMacro.Proofs.Order.Counts
import MusicMacro.Proofs.Order.Infinity

/-!
# Products of floating point numbers

The sample to which a time belongs is the count nearest to its product with the rate. The product is
rounded to 64 bits before it is rounded to a count, and neither changes the order, though what is
rounded up by the first may be rounded up by the second for that reason alone.

The exact product of two numbers of 64 bits is a whole number of units twice as fine as theirs. It
is rounded to the nearest multiple of a power of two that grows with it, and of two that are as near
to the even one.

* `Double.Rounded.mono` — a greater magnitude is rounded to a magnitude that is no less.
* `Double.product_cases` — what a product is rounded to.
* `Double.isPositive_ofNat` — a rate is not below zero.
* `Double.count_mul_le` — the count of a product with such a number goes with the order.
* The instances of `Scalar.Sampled` and `Scalar.Standing` for `Float`.
-/

namespace MusicMacro

open Float.Model UnpackedFloat

namespace Double

/-! ## Rounding goes with the order -/

theorem Nearest.mono {a c n q t : Nat} (ha : Nearest a n t) (hc : Nearest c q t) (h : a ≤ c) :
    n ≤ q := by
  by_contra hlt
  obtain ⟨d, rfl⟩ : ∃ d, n = q + 1 + d := Nat.exists_eq_add_of_le (by omega)
  have hpos := Nat.two_pow_pos t
  have hge := ha.ge
  have hle := hc.le
  have heven := ha.even
  have heven' := hc.even
  have hsplit : (q + 1 + d) * 2 ^ t = q * 2 ^ t + 2 ^ t + d * 2 ^ t := by ring
  rw [hsplit] at hge heven
  -- both lie halfway between two neighbours, and only one of these is even
  have hzero : d * 2 ^ t = 0 := by omega
  obtain rfl := (Nat.mul_eq_zero.1 hzero).resolve_right hpos.ne'
  have := heven (.inr (by omega))
  have := heven' (.inl (by omega))
  omega

theorem lastPlace_mono (b : Nat) {a c : Nat} (h : a ≤ c) : lastPlace b a ≤ lastPlace b c := by
  have hlog := Nat.log_mono_right (b := 2) h
  rw [← Nat.log2_eq_log_two, ← Nat.log2_eq_log_two] at hlog
  rw [lastPlace, lastPlace]
  omega

theorem le_lastPlace (j a : Nat) : j ≤ lastPlace (1074 + j) a := by
  rw [lastPlace]
  omega

theorem Rounded.mono {j a c n q : Nat} (ha : Rounded j a n (lastPlace (1074 + j) a))
    (hc : Rounded j c q (lastPlace (1074 + j) c)) (h : a ≤ c) :
    n * 2 ^ lastPlace (1074 + j) a ≤ q * 2 ^ lastPlace (1074 + j) c := by
  rcases (lastPlace_mono (1074 + j) h).eq_or_lt with hsame | hcoarse
  · rw [hsame] at ha ⊢
    exact Nat.mul_le_mul_right _ (ha.toNearest.mono hc.toNearest h)
  · -- the smaller number is at most the least one of the larger number's exponent
    have hleast := le_lastPlace j a
    obtain ⟨-, hq⟩ := hc.full.resolve_left (by omega)
    calc n * 2 ^ lastPlace (1074 + j) a ≤ 2 ^ 53 * 2 ^ lastPlace (1074 + j) a :=
          Nat.mul_le_mul_right _ ha.small
      _ = 2 ^ 52 * 2 ^ (lastPlace (1074 + j) a + 1) := by ring
      _ ≤ q * 2 ^ lastPlace (1074 + j) c :=
        Nat.mul_le_mul hq (Nat.pow_le_pow_right Nat.two_pos hcoarse)

/-- What is rounded is zero or a number of 64 bits. -/
theorem roundWithAccuracy_cases {j m : Nat} (hm : 0 < m) {e : Int} (he : -(1074 + j : Nat) ≤ e)
    (hle : e ≤ lastPlace (1074 + j) (scaled (1074 + j) m e) - (1074 + j : Nat)) :
    ∃ q, Rounded j (scaled (1074 + j) m e) q (lastPlace (1074 + j) (scaled (1074 + j) m e)) ∧
      ((q = 0 ∧ ∀ s, roundWithAccuracy Format.binary64 s m e .exact = .zero s) ∨
        ∃ c g, ∃ hc : 0 < c, Canonical c g ∧
          magnitude c g * 2 ^ j = q * 2 ^ lastPlace (1074 + j) (scaled (1074 + j) m e) ∧
          ∀ s, roundWithAccuracy Format.binary64 s m e .exact = .finite s c g hc) := by
  obtain ⟨em, hshift, hrounded⟩ :=
    shiftToTargetExponent_exact (Nat.le_add_right 1074 j) hm he rfl hle
  have hleast := le_lastPlace j (scaled (1074 + j) m e)
  generalize lastPlace (1074 + j) (scaled (1074 + j) m e) = t at hshift hrounded hleast ⊢
  rw [Nat.add_sub_cancel_left] at hrounded
  obtain ⟨u, rfl⟩ : ∃ u, t = u + j := ⟨t - j, by omega⟩
  have hexponent : ((u + j : Nat) : Int) - (1074 + j : Nat) = (u : Int) - 1074 := by omega
  rw [hexponent] at hshift
  refine ⟨em.roundedMantissa, hrounded, ?_⟩
  by_cases hzero : em.roundedMantissa = 0
  · refine .inl ⟨hzero, fun s => ?_⟩
    obtain ⟨lost, -, hlost, -⟩ := shifted_shiftRight 0
      (Format.binary64.targetExponent (totalExponent 0 ((u : Int) - 1074)) -
        ((u : Int) - 1074)).toNat
    have hnone := (Nat.mul_eq_zero.1 (Nat.add_eq_zero_iff.1 hlost).1).resolve_right
      (Nat.two_pow_pos _).ne'
    simp only [roundWithAccuracy, hshift, hzero]
    exact dif_pos hnone
  · have hfull : u = 0 ∨ 2 ^ 52 ≤ em.roundedMantissa :=
      hrounded.full.imp (fun h => by omega) And.right
    obtain ⟨em', f, hshift', hc, hcanonical, hmagnitude⟩ :=
      shiftToTargetExponent_rounded hrounded.small (Nat.pos_of_ne_zero hzero) hfull
    refine .inr ⟨em'.mantissa, f, hc, hcanonical, ?_, fun s => ?_⟩
    · rw [hmagnitude, Nat.pow_add, Nat.mul_assoc]
    · simp only [roundWithAccuracy, hshift, hshift']
      exact dif_neg hc.ne'

/-! ## Products -/

/-- In finer units, a product of numbers of 64 bits is a product of their magnitudes. -/
theorem scaled_mul {m n : Nat} {e f : Int} (hm : Canonical m e) (hn : Canonical n f) :
    scaled (1074 + 1074) (m * n) (e + f) = magnitude m e * magnitude n f := by
  have he := hm.least_le
  have hf := hn.least_le
  have hsum : (e + f + (1074 + 1074 : Nat)).toNat = (e + 1074).toNat + (f + 1074).toNat := by omega
  rw [scaled, hsum, Nat.pow_add, magnitude, magnitude]
  ring

/-- A product is rounded to zero or to a number of 64 bits. -/
theorem product_cases {m n : Nat} (hm : 0 < m) (hn : 0 < n) {e f : Int} (hme : Canonical m e)
    (hnf : Canonical n f) :
    let a := magnitude m e * magnitude n f
    ∃ q, Rounded 1074 a q (lastPlace (1074 + 1074) a) ∧
      ((q = 0 ∧ ∀ s, roundWithAccuracy Format.binary64 s (m * n) (e + f) .exact = .zero s) ∨
        ∃ c g, ∃ hc : 0 < c, Canonical c g ∧
          magnitude c g * 2 ^ 1074 = q * 2 ^ lastPlace (1074 + 1074) a ∧
          ∀ s, roundWithAccuracy Format.binary64 s (m * n) (e + f) .exact =
            .finite s c g hc) := by
  intro a
  have he := hme.least_le
  have hf := hnf.least_le
  have hmn : 0 < m * n := Nat.mul_pos hm hn
  have hscaled : scaled (1074 + 1074) (m * n) (e + f) = a := scaled_mul hme hnf
  have hle : e + f ≤ lastPlace (1074 + 1074) (scaled (1074 + 1074) (m * n) (e + f)) -
      (1074 + 1074 : Nat) := by
    rw [lastPlace, log2_scaled hmn]
    rcases hme.full with hfull | rfl
    · have hlog : 52 ≤ (m * n).log2 :=
        (Nat.le_log2 hmn.ne').2 (hfull.trans (Nat.le_mul_of_pos_right m hn))
      omega
    · rcases hnf.full with hfull | rfl
      · have hlog : 52 ≤ (m * n).log2 :=
          (Nat.le_log2 hmn.ne').2 (hfull.trans (Nat.le_mul_of_pos_left n hm))
        omega
      · omega
  have h := roundWithAccuracy_cases (j := 1074) hmn (by omega) hle
  rwa [hscaled] at h

/-- Not below zero, by its sign, and a number. -/
def isPositive : UnpackedFloat → Bool
  | .notANumber => false
  | .infinity s | .zero s | .finite s .. => !isNegative s

theorem isPositive_roundWithAccuracy (m : Nat) (e : Int) (accuracy : Accuracy) :
    isPositive (roundWithAccuracy Format.binary64 .positive m e accuracy) := by
  simp only [roundWithAccuracy]
  split <;> rfl

/-- A number with the sign of those that are not below zero is one of them. -/
theorem isPositive_unpack {b : BitVec Format.binary64.numBits}
    (hsign : isNegative (Sign.ofBitVec (unpackSign b)) = false)
    (hnumber : (UnpackedFloat.unpack Format.binary64 b).isNaN = false) :
    isPositive (UnpackedFloat.unpack Format.binary64 b) := by
  have hpos : (!isNegative (Sign.ofBitVec (unpackSign b))) = true := by rw [hsign]; rfl
  revert hnumber
  unfold UnpackedFloat.unpack
  dsimp only
  split
  · split
    · exact fun _ => hpos
    · exact fun hnan => by cases hnan
  · split
    · split <;> exact fun _ => hpos
    · exact fun _ => hpos

theorem unpackSign_pack_finite (s : Sign) {m : Nat} (e : Int) (hm : 0 < m) :
    unpackSign (UnpackedFloat.pack Format.binary64 (.finite s m e hm)) = s.toBitVec := by
  rw [UnpackedFloat.pack]
  dsimp only
  split
  · exact unpackSign_packComponents _ _ _
  · split <;> exact unpackSign_packComponents _ _ _

theorem isPositive_unpack_pack {a : UnpackedFloat} (h : isPositive a) :
    isPositive
      (UnpackedFloat.unpack Format.binary64 (UnpackedFloat.pack Format.binary64 a)) := by
  cases a with
  | notANumber => cases h
  | infinity s => rwa [UnpackedFloat.pack, unpack_packedInfinity]
  | zero s => rwa [UnpackedFloat.pack, unpack_packedZero]
  | finite s m e hm =>
    refine isPositive_unpack ?_ (isNaN_unpack_pack rfl)
    rw [unpackSign_pack_finite, Sign.ofBitVec_toBitVec]
    cases s with
    | negative => cases h
    | positive => rfl

theorem isPositive_mul_finite {a : UnpackedFloat} (h : isPositive a) {m : Nat} (hm : 0 < m)
    (e : Int) : isPositive (UnpackedFloat.mul Format.binary64 a (.finite .positive m e hm)) := by
  rcases a with (_ | _) | _ | (_ | _) | ⟨_ | _, n, f, hn⟩
  case infinity.negative | notANumber | zero.negative | finite.negative => cases h
  case infinity.positive | zero.positive => rfl
  case finite.positive => exact isPositive_roundWithAccuracy _ _ _

theorem isPositive_normalize (n : Nat) :
    isPositive (UnpackedFloat.normalize Format.binary64 n 0 .positive) := by
  unfold UnpackedFloat.normalize
  split
  · rename_i hneg
    have := Int.compare_eq_lt.1 hneg
    omega
  · rfl
  · exact isPositive_roundWithAccuracy _ _ _

/-- A count is not below zero as a number of 64 bits. -/
theorem isPositive_ofNat (n : Nat) : isPositive (Float.ofNat n).toModel.unpack := by
  show isPositive (Float.ofScientific n false 0).toModel.unpack
  unfold Float.ofScientific
  split
  · obtain ⟨m, e, hm, hone⟩ : ∃ m e, ∃ hm : 0 < m,
        (getElem Float.exactlyRepresentablePowersOfTen 0 (by decide)).toModel.unpack =
          .finite .positive m e hm := ⟨2 ^ 52, -52, by decide, by rfl⟩
    show isPositive (UnpackedFloat.unpack Format.binary64 (UnpackedFloat.pack Format.binary64
      (UnpackedFloat.mul Format.binary64 n.toUInt64.toFloat.toModel.unpack
        (getElem Float.exactlyRepresentablePowersOfTen 0 (by decide)).toModel.unpack)))
    rw [hone]
    exact isPositive_unpack_pack (isPositive_mul_finite
      (isPositive_unpack_pack (isPositive_normalize n.toUInt64.toNat)) hm e)
  · refine isPositive_unpack_pack ?_
    show isPositive (UnpackedFloat.ofScientific Format.binary64 n 0)
    unfold UnpackedFloat.ofScientific
    split_ifs with hzero hlarge hsmall hnonneg
    · rfl
    · rfl
    · rfl
    · exact isPositive_mul_finite rfl _ _
    · exact absurd le_rfl hnonneg

theorem isCanonical_mul {a r : UnpackedFloat} (ha : a.isFinite → IsCanonical a)
    (hr : r.isFinite → IsCanonical r) (h : (UnpackedFloat.mul Format.binary64 a r).isFinite) :
    IsCanonical (UnpackedFloat.mul Format.binary64 a r) := by
  cases a with
  | notANumber => cases h
  | infinity s => cases r <;> cases h
  | zero s =>
    cases r with
    | notANumber | infinity t => cases h
    | zero t => exact .zero _
    | finite t n f hn => exact .zero _
  | finite s m e hm =>
    cases r with
    | notANumber | infinity t => cases h
    | zero t => exact .zero _
    | finite t n f hn =>
      cases ha rfl with
      | finite _ _ hme =>
        cases hr rfl with
        | finite _ _ hnf =>
          rw [UnpackedFloat.mul]
          obtain ⟨q, -, ⟨-, hround⟩ | ⟨c, g, hc, hcanonical, -, hround⟩⟩ :=
            product_cases hm hn hme hnf
          · rw [hround]
            exact .zero _
          · rw [hround]
            exact .finite _ hc hcanonical

/-- A product of numbers above zero has the count of the rounded product of their magnitudes. -/
theorem count_mul_finite {m n : Nat} (hm : 0 < m) (hn : 0 < n) {e f : Int} (hme : Canonical m e)
    (hnf : Canonical n f) :
    let a := magnitude m e * magnitude n f
    ∃ q, Rounded 1074 a q (lastPlace (1074 + 1074) a) ∧
      count (UnpackedFloat.mul Format.binary64 (.finite .positive m e hm)
        (.finite .positive n f hn)) =
        countOf (1074 + 1074) (q * 2 ^ lastPlace (1074 + 1074) a) := by
  intro a
  obtain ⟨q, hq, ⟨rfl, hround⟩ | ⟨c, g, hc, -, hsame, hround⟩⟩ := product_cases hm hn hme hnf
  · refine ⟨0, hq, ?_⟩
    rw [Nat.zero_mul, countOf_zero, UnpackedFloat.mul, hround]
    rfl
  · refine ⟨q, hq, ?_⟩
    rw [← hsame, countOf_scale, UnpackedFloat.mul, hround]
    rfl

theorem count_of_not_isPositive {a : UnpackedFloat} (h : isPositive a = false) : count a = 0 := by
  rcases a with (_ | _) | _ | (_ | _) | ⟨_ | _, m, e, hm⟩
  case infinity.positive | zero.positive | finite.positive => cases h
  all_goals rfl

theorem not_isPositive_mul {a r : UnpackedFloat} (ha : isPositive a = false) (hr : isPositive r) :
    isPositive (UnpackedFloat.mul Format.binary64 a r) = false := by
  rcases a with (_ | _) | _ | (_ | _) | ⟨_ | _, m, e, hm⟩
  case infinity.positive | zero.positive | finite.positive => cases ha
  case notANumber => rfl
  case infinity.negative | zero.negative =>
    rcases r with (_ | _) | _ | (_ | _) | ⟨_ | _, n, f, hn⟩ <;> first | rfl | cases hr
  case finite.negative =>
    rcases r with (_ | _) | _ | (_ | _) | ⟨_ | _, n, f, hn⟩
    case finite.positive =>
      show isPositive (roundWithAccuracy Format.binary64 .negative _ _ .exact) = false
      simp only [roundWithAccuracy]
      split <;> rfl
    all_goals first | rfl | cases hr

/-- What is no less than the greatest number is the greatest number. -/
theorem eq_infinity_of_le {b : UnpackedFloat} (hnan : b.isNaN = false)
    (h : place (.infinity .positive) ≤ place b) : b = .infinity .positive := by
  cases hb : b.isFinite with
  | true => exact absurd h (not_le.2 (place_lt_infinity hb))
  | false => exact eq_infinity (a := .zero .positive) rfl ((place_le_infinity _).trans h) hnan hb

/-- What is no less than a number above zero is above zero. -/
theorem finite_or_eq_infinity_of_le {m : Nat} {e : Int} {hm : 0 < m} {b : UnpackedFloat}
    (h : place (.finite .positive m e hm) ≤ place b) :
    (∃ n f, ∃ hn : 0 < n, b = .finite .positive n f hn) ∨ b = .infinity .positive := by
  rcases b with (_ | _) | _ | (_ | _) | ⟨_ | _, n, f, hn⟩
  case infinity.positive => exact .inr rfl
  case finite.positive => exact .inl ⟨n, f, hn, rfl⟩
  all_goals simp [place, Prod.Lex.toLex_le_toLex] at h

/-- The count of a product of numbers above zero goes with the order. -/
theorem count_mul_finite_le {m n k : Nat} (hm : 0 < m) (hn : 0 < n) (hk : 0 < k) {e f g : Int}
    (hme : Canonical m e) (hnf : Canonical n f) (hkg : Canonical k g)
    (h : magnitude m e ≤ magnitude n f) :
    count (UnpackedFloat.mul Format.binary64 (.finite .positive m e hm)
        (.finite .positive k g hk)) ≤
      count (UnpackedFloat.mul Format.binary64 (.finite .positive n f hn)
        (.finite .positive k g hk)) := by
  obtain ⟨p, hp, hcount⟩ := count_mul_finite hm hk hme hkg
  obtain ⟨q, hq, hcount'⟩ := count_mul_finite hn hk hnf hkg
  rw [hcount, hcount']
  exact countOf_mono _ (hp.mono hq (Nat.mul_le_mul_right _ h))

/-- The count of a product with a number that is not below zero goes with the order. -/
theorem count_mul_le {a b r : UnpackedFloat} (ha : a.isFinite → IsCanonical a)
    (hb : b.isFinite → IsCanonical b) (hr : r.isFinite → IsCanonical r) (hpos : isPositive r)
    (hnan : b.isNaN = false) (h : place a ≤ place b) :
    count (UnpackedFloat.mul Format.binary64 a r) ≤
      count (UnpackedFloat.mul Format.binary64 b r) := by
  cases hsign : isPositive a with
  | false =>
    rw [count_of_not_isPositive (not_isPositive_mul hsign hpos)]
    exact Nat.zero_le _
  | true =>
    rcases a with (_ | _) | _ | s | ⟨_ | _, m, e, hm⟩
    case infinity.negative | notANumber | finite.negative => cases hsign
    case infinity.positive => rw [eq_infinity_of_le hnan h]
    case zero =>
      have hzero : count (UnpackedFloat.mul Format.binary64 (.zero s) r) = 0 := by cases r <;> rfl
      rw [hzero]
      exact Nat.zero_le _
    case finite.positive =>
      rcases finite_or_eq_infinity_of_le h with ⟨n, f, hn, rfl⟩ | rfl
      · rcases r with t | _ | t | ⟨t, k, g, hk⟩
        case infinity | notANumber | zero => exact le_rfl
        case finite =>
          cases t with
          | negative => cases hpos
          | positive =>
            have hle := (place_le_iff_units (ha rfl) (hb rfl)).1 h
            cases ha rfl with | finite _ _ hme =>
            cases hb rfl with | finite _ _ hnf =>
            cases hr rfl with | finite _ _ hkg =>
            exact count_mul_finite_le hm hn hk hme hnf hkg (Int.ofNat_le.1 hle)
      · rcases r with (_ | _) | _ | t | ⟨_ | _, k, g, hk⟩
        case infinity.negative | notANumber | finite.negative => cases hpos
        case infinity.positive | zero => exact Nat.le_of_eq rfl
        case finite.positive => exact count_le _

end Double

open Double

theorem sampleIndex_eq_count (a : Float) (rate : Nat) :
    Scalar.sampleIndex a rate = count (UnpackedFloat.mul Format.binary64 a.toModel.unpack
      (Float.ofNat rate).toModel.unpack) := by
  show Scalar.nearest (a * Float.ofNat rate) = _
  rw [nearest_eq_count]
  exact count_unpack_pack (isCanonical_mul isCanonical_unpack isCanonical_unpack)

instance : Scalar.Sampled Float where
  sampleIndex_le := by
    intro a b rate h
    obtain ⟨-, hnan, hplace⟩ := le_iff_place.1 h
    rw [sampleIndex_eq_count, sampleIndex_eq_count]
    exact count_mul_le isCanonical_unpack isCanonical_unpack isCanonical_unpack
      (isPositive_ofNat rate) hnan hplace

instance : Scalar.Standing Float where
  sampleIndex_zero := by
    intro a
    have hzero : (Float.ofNat 0).toModel.unpack = .zero .positive := by rfl
    rw [sampleIndex_eq_count, hzero]
    cases a.toModel.unpack <;> rfl

end MusicMacro
