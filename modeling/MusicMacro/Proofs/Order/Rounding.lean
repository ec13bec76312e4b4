import Mathlib
import MusicMacro.Proofs.Order.Binary64

/-!
# Sums of floating point numbers

A sum is rounded, and a sum of two numbers above zero may be one of the two. It is never less, since
what is rounded stays on its side of every number of 64 bits.

Numbers are compared in units of the least one above zero. Every finite number is a multiple of it,
so that there are no fractions.

* `Double.Canonical` — significands and exponents as they are packed.
* `Double.Nearest`, `Double.Rounded` — what a magnitude is rounded to.
* `Double.round_cases` — what is rounded stays between the numbers of 64 bits around it.
* `Double.place_le_iff_units` — in units, numbers are as large as their places say.
* `Double.unpack_pack_finite` — what is packed is unpacked again unless it is too large.
* The instance of `Scalar.Cumulative` for `Float`.
-/

namespace MusicMacro

open Float.Model UnpackedFloat

namespace Double

/-- A significand times a power of two, in units of the least number above zero. -/
def magnitude (m : Nat) (e : Int) : Nat := m * 2 ^ (e + 1074).toNat

/-- A significand and an exponent as they are packed: the significand takes all its bits unless the
exponent is the least. -/
structure Canonical (m : Nat) (e : Int) : Prop where
  lt : m < 2 ^ 53
  least_le : -1074 ≤ e
  full : 2 ^ 52 ≤ m ∨ e = -1074

/-! ## Comparisons of magnitudes -/

theorem magnitude_pos {m : Nat} (hm : 0 < m) (e : Int) : 0 < magnitude m e :=
  Nat.mul_pos hm (Nat.two_pow_pos _)

theorem magnitude_shiftLeft (m : Nat) {k : Nat} {e f : Int} (he : -1074 ≤ e) (h : e + k = f) :
    magnitude (m <<< k) e = magnitude m f := by
  have hsum : k + (e + 1074).toNat = (f + 1074).toNat := by omega
  rw [magnitude, Nat.shiftLeft_eq, Nat.mul_assoc, ← Nat.pow_add, hsum, magnitude]

theorem Canonical.magnitude_lt {m n : Nat} {e f : Int} (hm : Canonical m e) (hn : Canonical n f)
    (h : e < f) : magnitude m e < magnitude n f := by
  have hfull : 2 ^ 52 ≤ n := hn.full.resolve_right fun heq => by have := hm.least_le; omega
  have hexponent : (e + 1074).toNat + 1 ≤ (f + 1074).toNat := by
    have := hm.least_le
    omega
  calc magnitude m e < 2 ^ 53 * 2 ^ (e + 1074).toNat :=
        Nat.mul_lt_mul_of_pos_right hm.lt (Nat.two_pow_pos _)
    _ = 2 ^ 52 * 2 ^ ((e + 1074).toNat + 1) := by ring
    _ ≤ n * 2 ^ (f + 1074).toNat :=
        Nat.mul_le_mul hfull (Nat.pow_le_pow_right (by decide) hexponent)

theorem Canonical.magnitude_le_iff {m n : Nat} {e f : Int} (hm : Canonical m e)
    (hn : Canonical n f) : magnitude m e ≤ magnitude n f ↔ e < f ∨ e = f ∧ m ≤ n := by
  rcases lt_trichotomy e f with h | rfl | h
  · exact iff_of_true (hm.magnitude_lt hn h).le (.inl h)
  · rw [magnitude, magnitude, Nat.mul_le_mul_right_iff (Nat.two_pow_pos _)]
    simp
  · refine iff_of_false (hn.magnitude_lt hm h).not_ge ?_
    omega

/-! ## Rounding -/

/-- A significand was shifted to the right, and it is known how what was lost compares with half of
the last place. -/
def Shifted (em : ExtendedMantissa) (m k : Nat) : Prop :=
  ∃ lost < 2 ^ k, em.mantissa * 2 ^ k + lost = m ∧
    em.accuracy = if lost = 0 then .exact else .inexact (compare (2 * lost) (2 ^ k))

theorem Shifted.one {em : ExtendedMantissa} {m k : Nat} (h : Shifted em m k) :
    Shifted em.shiftRightOne m (k + 1) := by
  obtain ⟨lost, hlt, hm, haccuracy⟩ := h
  have hsplit : em.mantissa / 2 * 2 ^ (k + 1) + em.mantissa % 2 * 2 ^ k = em.mantissa * 2 ^ k := by
    rw [Nat.pow_succ', ← Nat.mul_assoc, ← Nat.add_mul, Nat.div_add_mod']
  have hsticky : (em.roundBit || em.stickyBit) = decide (lost ≠ 0) := by
    obtain ⟨n, round, sticky⟩ := em
    by_cases hzero : lost = 0 <;> cases round <;> cases sticky <;>
      simp [ExtendedMantissa.accuracy, hzero] at haccuracy ⊢
  refine ⟨em.mantissa % 2 * 2 ^ k + lost, ?_, ?_, ?_⟩
  · have hbit : em.mantissa % 2 * 2 ^ k ≤ 1 * 2 ^ k := Nat.mul_le_mul_right _ (by omega)
    rw [Nat.pow_succ]
    omega
  · rw [ExtendedMantissa.shiftRightOne, ← Nat.add_assoc, hsplit, hm]
  · have hpos := Nat.two_pow_pos k
    rw [ExtendedMantissa.shiftRightOne, hsticky, Nat.pow_succ]
    rcases Nat.mod_two_eq_zero_or_one em.mantissa with heven | hodd <;>
      by_cases hzero : lost = 0
    · simp [ExtendedMantissa.accuracy, heven, hzero]
    · have hless : 2 * lost < 2 ^ k * 2 := by omega
      simp [ExtendedMantissa.accuracy, heven, hzero, Nat.compare_eq_lt.2 hless]
    · have hsame : 2 * 2 ^ k = 2 ^ k * 2 := Nat.mul_comm _ _
      simp [ExtendedMantissa.accuracy, hodd, hzero, Nat.compare_eq_eq.2 hsame]
    · have hmore : 2 ^ k * 2 < 2 * (2 ^ k + lost) := by omega
      simp [ExtendedMantissa.accuracy, hodd, hzero, Nat.compare_eq_gt.2 hmore]

theorem shifted_shiftRight (m k : Nat) :
    Shifted (ExtendedMantissa.ofMantissaAndAccuracy m .exact >>> k) m k := by
  show Shifted (Nat.repeat ExtendedMantissa.shiftRightOne k ⟨m, false, false⟩) m k
  induction k with
  | zero => exact ⟨0, Nat.one_pos, Nat.mul_one m, rfl⟩
  | succ k ih => exact ih.one

/-- A magnitude is rounded to the nearest multiple of a power of two, and to an even one if two are
as near. -/
structure Nearest (a n t : Nat) : Prop where
  le : 2 * a ≤ 2 * (n * 2 ^ t) + 2 ^ t
  ge : 2 * (n * 2 ^ t) ≤ 2 * a + 2 ^ t
  even : 2 * a = 2 * (n * 2 ^ t) + 2 ^ t ∨ 2 * (n * 2 ^ t) = 2 * a + 2 ^ t → n % 2 = 0

theorem Shifted.nearest {em : ExtendedMantissa} {m k : Nat} (h : Shifted em m k) :
    Nearest m em.roundedMantissa k := by
  obtain ⟨lost, hlt, rfl, haccuracy⟩ := h
  rw [ExtendedMantissa.roundedMantissa, haccuracy]
  generalize em.mantissa = n
  have hpos := Nat.two_pow_pos k
  have hdown (h : 2 * lost < 2 ^ k) : Nearest (n * 2 ^ k + lost) n k :=
    ⟨by omega, by omega, by omega⟩
  have hup (h : 2 ^ k < 2 * lost) : Nearest (n * 2 ^ k + lost) (n + 1) k := by
    constructor <;> rw [Nat.add_one_mul n] <;> omega
  by_cases hzero : lost = 0
  · rw [if_pos hzero]
    exact hdown (by omega)
  · rw [if_neg hzero]
    rcases Nat.lt_trichotomy (2 * lost) (2 ^ k) with hless | hsame | hmore
    · rw [Nat.compare_eq_lt.2 hless]
      exact hdown hless
    · rw [Nat.compare_eq_eq.2 hsame, Accuracy.roundToNearestEven]
      rcases Nat.mod_two_eq_zero_or_one n with heven | hodd
      · rw [heven, Nat.add_zero]
        exact ⟨by omega, by omega, fun _ => heven⟩
      · rw [hodd]
        refine ⟨?_, ?_, fun _ => by omega⟩ <;> rw [Nat.add_one_mul n] <;> omega
    · rw [Nat.compare_eq_gt.2 hmore]
      exact hup hmore

theorem Nearest.scale {a n t : Nat} (h : Nearest a n t) (j : Nat) :
    Nearest (a * 2 ^ j) n (t + j) := by
  have hpos := Nat.two_pow_pos j
  have hn : 2 * (n * 2 ^ (t + j)) = 2 * (n * 2 ^ t) * 2 ^ j := by ring
  have ha : 2 * (a * 2 ^ j) = 2 * a * 2 ^ j := by ring
  constructor <;> rw [hn, ha, Nat.pow_add, ← Nat.add_mul]
  · exact Nat.mul_le_mul_right _ h.le
  · exact Nat.mul_le_mul_right _ h.ge
  · rw [← Nat.add_mul]
    exact fun heq => h.even (heq.imp (Nat.eq_of_mul_eq_mul_right hpos)
      (Nat.eq_of_mul_eq_mul_right hpos))

/-- What is rounded changes by less than one of its last places. -/
theorem Nearest.close {a n t : Nat} (h : Nearest a n t) :
    a < (n + 1) * 2 ^ t ∧ n * 2 ^ t < a + 2 ^ t := by
  have hpos := Nat.two_pow_pos t
  have hle := h.le
  have hge := h.ge
  rw [Nat.add_one_mul]
  omega

/-- A magnitude is rounded to a number of 64 bits: to a multiple of a power of two that is no less
than the least, and to one that is full if it is greater. -/
structure Rounded (least a n t : Nat) : Prop extends Nearest a n t where
  small : n ≤ 2 ^ 53
  full : t = least ∨ 2 ^ 52 * 2 ^ t ≤ a ∧ 2 ^ 52 ≤ n

/-- What is rounded stays between the numbers of 64 bits around it. -/
theorem Rounded.between {a n t : Nat} (h : Rounded 0 a n t) {m : Nat} {e : Int}
    (hm : Canonical m e) :
    (magnitude m e ≤ a → magnitude m e ≤ n * 2 ^ t) ∧
      (a ≤ magnitude m e → n * 2 ^ t ≤ magnitude m e) := by
  obtain ⟨hbelow, habove⟩ := h.close
  have hadd := hbelow
  rw [Nat.add_one_mul] at hadd
  rcases Nat.lt_or_ge (e + 1074).toNat t with hfine | hcoarse
  · -- the number is less than all that is rounded to this power
    obtain ⟨hlow, hn⟩ := h.full.resolve_left (by omega)
    have hlt : magnitude m e < 2 ^ 52 * 2 ^ t := calc
      magnitude m e < 2 ^ 53 * 2 ^ (e + 1074).toNat :=
        Nat.mul_lt_mul_of_pos_right hm.lt (Nat.two_pow_pos _)
      _ = 2 ^ 52 * 2 ^ ((e + 1074).toNat + 1) := by ring
      _ ≤ 2 ^ 52 * 2 ^ t := Nat.mul_le_mul_left _ (Nat.pow_le_pow_right (by decide) hfine)
    exact ⟨fun _ => hlt.le.trans (Nat.mul_le_mul_right _ hn), fun hle => absurd hle (by omega)⟩
  · -- the number is a multiple of this power
    obtain ⟨k, hk⟩ := Nat.le.dest hcoarse
    have hmultiple : magnitude m e = m * 2 ^ k * 2 ^ t := by
      rw [magnitude, ← hk]
      ring
    rw [hmultiple]
    refine ⟨fun hle => Nat.mul_le_mul_right _ (Nat.le_of_lt_succ ?_),
      fun hle => Nat.mul_le_mul_right _ (Nat.le_of_lt_succ ?_)⟩
    · exact Nat.lt_of_mul_lt_mul_right (hle.trans_lt hbelow)
    · refine Nat.lt_of_mul_lt_mul_right (a := 2 ^ t) (habove.trans_le ?_)
      rw [Nat.succ_mul]
      omega

/-- A significand times a power of two, in units of two to the power `-b`. -/
def scaled (b m : Nat) (e : Int) : Nat := m * 2 ^ (e + b).toNat

theorem scaled_pos {b m : Nat} (hm : 0 < m) (e : Int) : 0 < scaled b m e :=
  Nat.mul_pos hm (Nat.two_pow_pos _)

theorem log2_scaled {b m : Nat} (hm : 0 < m) (e : Int) :
    (scaled b m e).log2 = m.log2 + (e + b).toNat := by
  have hpos := scaled_pos (b := b) hm e
  refine (Nat.log2_eq_iff hpos.ne').2 ⟨?_, ?_⟩
  · rw [Nat.pow_add]
    exact Nat.mul_le_mul_right _ (Nat.log2_self_le hm.ne')
  · rw [Nat.add_right_comm, Nat.pow_add]
    exact Nat.mul_lt_mul_of_pos_right Nat.lt_log2_self (Nat.two_pow_pos _)

/-- The exponent to which is rounded, in units of two to the power `-b`. -/
def lastPlace (b a : Nat) : Nat := max (a.log2 - 52) (b - 1074)

theorem targetExponent_eq {b m : Nat} (hb : 1074 ≤ b) (hm : 0 < m) {e : Int} (he : -b ≤ e) :
    Format.binary64.targetExponent (totalExponent m e) =
      (lastPlace b (scaled b m e) : Int) - b := by
  show max (((m.log2 : Int) + 1 + e) - 53) (-1074) = _
  rw [lastPlace, log2_scaled hm]
  omega

theorem shiftToTargetExponent_exact {b m : Nat} (hb : 1074 ≤ b) (hm : 0 < m) {e : Int}
    (he : -b ≤ e) {t : Nat} (ht : t = lastPlace b (scaled b m e)) (hle : e ≤ t - b) :
    ∃ em, shiftToTargetExponent Format.binary64 m e .exact = (em, (t : Int) - b) ∧
      Rounded (b - 1074) (scaled b m e) em.roundedMantissa t := by
  have hpos := scaled_pos (b := b) hm e
  let k := ((t : Int) - b - e).toNat
  have hexponent : e + k = (t : Int) - b := by omega
  have hsum : k + (e + b).toNat = t := by omega
  let em := ExtendedMantissa.ofMantissaAndAccuracy m .exact >>> k
  have hnearest : Nearest (scaled b m e) em.roundedMantissa t := by
    have h := (shifted_shiftRight m k).nearest.scale (e + b).toNat
    rwa [hsum] at h
  have hlow := hnearest.close.1
  have hhigh := hnearest.close.2
  have hlt : scaled b m e < 2 ^ 53 * 2 ^ t := by
    rw [← Nat.pow_add]
    refine (Nat.log2_lt hpos.ne').1 ?_
    rw [ht, lastPlace]
    omega
  refine ⟨em, ?_, hnearest, ?_, ?_⟩
  · rw [shiftToTargetExponent, targetExponent_eq hb hm he, ← ht]
    exact congrArg (em, ·) hexponent
  · refine Nat.le_of_lt_succ (Nat.lt_of_mul_lt_mul_right (a := 2 ^ t) ?_)
    rw [Nat.succ_mul]
    omega
  · rcases Nat.eq_or_lt_of_le (show b - 1074 ≤ t by rw [ht, lastPlace]; omega) with hleast | hcoarse
    · exact .inl hleast.symm
    · have hlarge : 2 ^ 52 * 2 ^ t ≤ scaled b m e := by
        rw [← Nat.pow_add]
        refine (Nat.le_log2 hpos.ne').1 ?_
        rw [lastPlace] at ht
        omega
      exact .inr ⟨hlarge, Nat.le_of_lt_succ (Nat.lt_of_mul_lt_mul_right (hlarge.trans_lt hlow))⟩

/-- The carry of a rounded significand. -/
theorem shiftToTargetExponent_rounded {n t : Nat} (hn : n ≤ 2 ^ 53) (hpos : 0 < n)
    (hfull : t = 0 ∨ 2 ^ 52 ≤ n) :
    ∃ em e, shiftToTargetExponent Format.binary64 n ((t : Int) - 1074) .exact = (em, e) ∧
      0 < em.mantissa ∧ Canonical em.mantissa e ∧ magnitude em.mantissa e = n * 2 ^ t := by
  have htarget : Format.binary64.targetExponent (totalExponent n ((t : Int) - 1074)) =
      max ((n.log2 : Int) + 1 + (t - 1074) - 53) (-1074) := rfl
  rw [shiftToTargetExponent, htarget]
  rcases hn.eq_or_lt with rfl | hlt
  · have hlog : (2 ^ 53).log2 = 53 := Nat.log2_two_pow
    have hone : (max (((2 ^ 53).log2 : Int) + 1 + (t - 1074) - 53) (-1074) -
        ((t : Int) - 1074)).toNat = 1 := by
      rw [hlog]
      omega
    rw [shiftToExponent, hone]
    refine ⟨_, _, rfl, by decide, ⟨by decide, by omega, .inl (by decide)⟩, ?_⟩
    have hexponent : ((t : Int) - 1074 + (1 : Nat) + 1074).toNat = t + 1 := by omega
    have hcarry : 2 ^ 53 * 2 ^ t = 2 ^ 52 * 2 ^ (t + 1) := by ring
    rw [magnitude, hexponent, hcarry]
    rfl
  · have hlog : n.log2 < 53 := (Nat.log2_lt hpos.ne').2 hlt
    have hzero : (max ((n.log2 : Int) + 1 + (t - 1074) - 53) (-1074) -
        ((t : Int) - 1074)).toNat = 0 := by omega
    rw [shiftToExponent, hzero]
    refine ⟨_, _, rfl, hpos, ⟨hlt, by omega, ?_⟩, ?_⟩
    · exact hfull.symm.imp_right fun hzero => by omega
    · have hexponent : ((t : Int) - 1074 + (0 : Nat) + 1074).toNat = t := by omega
      rw [magnitude, hexponent]
      rfl

/-- What is rounded is a number of 64 bits, or too large for one, and stays between those around
it. -/
theorem round_cases (s : Sign) {m : Nat} (hm : 0 < m) {e : Int} (he : -1074 ≤ e) :
    ∃ n f, ∃ hn : 0 < n, UnpackedFloat.round Format.binary64 s m e = .finite s n f hn ∧
      Canonical n f ∧ ∀ c g, Canonical c g →
        (magnitude c g ≤ magnitude m e → magnitude c g ≤ magnitude n f) ∧
        (magnitude m e ≤ magnitude c g → magnitude n f ≤ magnitude c g) := by
  have htarget := targetExponent_eq (b := 1074) le_rfl hm he
  generalize ht : lastPlace 1074 (scaled 1074 m e) = t at htarget
  let k := (e - ((t : Int) - 1074)).toNat
  have hpos : 0 < m <<< k := by
    rw [Nat.shiftLeft_eq]
    exact Nat.mul_pos hm (Nat.two_pow_pos _)
  have hsame : magnitude (m <<< k) (e - k) = magnitude m e :=
    magnitude_shiftLeft m (by omega) (by omega)
  have hscaled : scaled 1074 (m <<< k) (e - k) = scaled 1074 m e := hsame
  obtain ⟨em, hshift, hrounded⟩ := shiftToTargetExponent_exact (b := 1074) le_rfl hpos
    (e := e - k) (t := t) (by omega) (by rw [hscaled, ht]) (by omega)
  have hrounded : Rounded 0 (magnitude m e) em.roundedMantissa t := by rwa [hscaled] at hrounded
  have hshift : shiftToTargetExponent Format.binary64 (m <<< k) (e - k) .exact =
      (em, (t : Int) - 1074) := hshift
  have hmpos := magnitude_pos hm e
  have hfull : t = 0 ∨ 2 ^ 52 ≤ em.roundedMantissa := hrounded.full.imp_right And.right
  have hrpos : 0 < em.roundedMantissa := by
    rcases hfull with rfl | hlarge
    · have hlt := hrounded.close.1
      omega
    · exact lt_of_lt_of_le (by decide) hlarge
  obtain ⟨em', f, hshift', hn, hcanonical, hmagnitude⟩ :=
    shiftToTargetExponent_rounded hrounded.small hrpos hfull
  refine ⟨em'.mantissa, f, hn, ?_, hcanonical, fun c g hc => ?_⟩
  · rw [UnpackedFloat.round, htarget, decreaseExponent]
    show roundWithAccuracy Format.binary64 s (m <<< k) (e - k) .exact = _
    simp only [roundWithAccuracy, hshift, hshift']
    exact dif_neg hn.ne'
  · rw [hmagnitude]
    exact hrounded.between hc

/-! ## Numbers in units -/

/-- A finite number in units of the least number above zero. -/
def units : UnpackedFloat → Int
  | .finite s m e _ => s.apply (magnitude m e)
  | .zero _ | .infinity _ | .notANumber => 0

/-- A finite number with a significand as it is packed. -/
inductive IsCanonical : UnpackedFloat → Prop
  | zero (s : Sign) : IsCanonical (.zero s)
  | finite (s : Sign) {m : Nat} {e : Int} (hm : 0 < m) (h : Canonical m e) :
    IsCanonical (.finite s m e hm)

/-- In units, numbers are as large as their places say. -/
theorem place_le_iff_units {a b : UnpackedFloat} (ha : IsCanonical a) (hb : IsCanonical b) :
    place a ≤ place b ↔ units a ≤ units b := by
  cases ha with
  | zero s =>
    cases hb with
    | zero t => exact iff_of_true le_rfl le_rfl
    | @finite t n f hn hb =>
      have hpos := magnitude_pos hn f
      cases t <;> simp [place, units, Sign.apply, Prod.Lex.toLex_le_toLex, hpos.ne']
  | @finite s m e hm ha =>
    have hpos := magnitude_pos hm e
    cases hb with
    | zero t => cases s <;> simp [place, units, Sign.apply, Prod.Lex.toLex_le_toLex, hpos.ne']
    | @finite t n f hn hb =>
      have hpos' := magnitude_pos hn f
      cases s <;> cases t <;>
        simp [place, units, Sign.apply, Prod.Lex.toLex_le_toLex, ha.magnitude_le_iff hb,
          hb.magnitude_le_iff ha] <;> omega

theorem sign_apply_mul (s : Sign) (a b : Int) : s.apply a * b = s.apply (a * b) := by
  cases s
  · exact Int.neg_mul a b
  · rfl

theorem normalize_eq_round {n : Int} (hn : n ≠ 0) (e : Int) (s : Sign) :
    ∃ t : Sign, t.apply n.natAbs = n ∧ UnpackedFloat.normalize Format.binary64 n e s =
      UnpackedFloat.round Format.binary64 t n.natAbs e := by
  rcases lt_or_gt_of_ne hn with hn | hn
  · have habs : (-n).toNat = n.natAbs := by omega
    refine ⟨.negative, ?_, ?_⟩
    · rw [Sign.apply]
      omega
    · simp only [UnpackedFloat.normalize, Int.compare_eq_lt.2 hn, habs]
  · have habs : n.toNat = n.natAbs := by omega
    refine ⟨.positive, ?_, ?_⟩
    · rw [Sign.apply]
      omega
    · simp only [UnpackedFloat.normalize, Int.compare_eq_gt.2 hn, habs]

/-- A sum that is rounded is no less than a number that the sum itself is no less than. -/
theorem units_le_normalize {a : UnpackedFloat} (ha : IsCanonical a) {n e : Int} (he : -1074 ≤ e)
    (h : units a ≤ n * (2 ^ (e + 1074).toNat : Nat)) (s : Sign) :
    IsCanonical (UnpackedFloat.normalize Format.binary64 n e s) ∧
      units a ≤ units (UnpackedFloat.normalize Format.binary64 n e s) := by
  by_cases hn : n = 0
  · rw [hn, Int.zero_mul] at h
    rw [hn]
    exact ⟨.zero s, h⟩
  · obtain ⟨t, hsign, hround⟩ := normalize_eq_round hn e s
    have hpos := magnitude_pos (Int.natAbs_pos.2 hn) e
    obtain ⟨m, f, hm, heq, hf, hbetween⟩ := round_cases t (Int.natAbs_pos.2 hn) he
    have hsum : n * (2 ^ (e + 1074).toNat : Nat) = t.apply (magnitude n.natAbs e) := by
      rw [magnitude, Nat.cast_mul, ← sign_apply_mul, hsign]
    rw [hsum] at h
    rw [hround, heq]
    refine ⟨.finite t hm hf, ?_⟩
    cases ha with
    | zero r => cases t <;> simp only [units, Sign.apply] at h ⊢ <;> omega
    | @finite r c g hc hg =>
      obtain ⟨hle, hge⟩ := hbetween c g hg
      cases t <;> cases r <;> simp only [units, Sign.apply] at h ⊢ <;> omega

/-- A sum with a number that is not below zero is no less than the other number. -/
theorem units_le_add {a b : UnpackedFloat} (ha : IsCanonical a) (hb : IsCanonical b)
    (h : 0 ≤ units b) :
    IsCanonical (UnpackedFloat.add Format.binary64 a b) ∧
      units a ≤ units (UnpackedFloat.add Format.binary64 a b) := by
  cases ha with
  | zero s =>
    cases hb with
    | zero t =>
      rw [UnpackedFloat.add]
      split <;> exact ⟨.zero _, le_rfl⟩
    | finite t hn hb => exact ⟨.finite t hn hb, h⟩
  | @finite s m e hm ha =>
    cases hb with
    | zero t => exact ⟨.finite s hm ha, le_rfl⟩
    | @finite t n f hn hb =>
      have he := ha.least_le
      have hf := hb.least_le
      have hm := magnitude_shiftLeft m (e := min e f) (f := e) (k := (e - min e f).toNat)
        (by omega) (by omega)
      have hn := magnitude_shiftLeft n (e := min e f) (f := f) (k := (f - min e f).toNat)
        (by omega) (by omega)
      refine units_le_normalize (.finite s ‹_› ha) (le_min he hf) ?_ _
      rw [Int.add_mul, sign_apply_mul, sign_apply_mul, ← Int.natCast_mul, ← Int.natCast_mul]
      rw [magnitude] at hm hn
      rw [hm, hn]
      exact Int.le_add_of_nonneg_right h

/-! ## Packing -/

theorem toNat_one_append (b : BitVec 52) : (1#1 ++ b).toNat = 2 ^ 52 + b.toNat := by
  rw [BitVec.toNat_append, ← Nat.shiftLeft_add_eq_or_of_lt b.isLt]
  rfl

/-- What is unpacked has one of the exponents that are packed. -/
theorem canonical_of_unpack {b : BitVec Format.binary64.numBits} {s : Sign} {m : Nat} {e : Int}
    {hm : 0 < m} (h : UnpackedFloat.unpack Format.binary64 b = .finite s m e hm) :
    Canonical m e ∧ e ≤ 971 := by
  unfold UnpackedFloat.unpack at h
  dsimp only at h
  have hmantissa : (unpackMantissa b).toNat < 2 ^ 52 := (unpackMantissa b).isLt
  have hexponent : (unpackExponent b).toNat < 2 ^ 11 := (unpackExponent b).isLt
  have hbias : ((Format.binary64.exponentBias : Nat) : Int) = 1023 := rfl
  split at h
  · split at h <;> cases h
  · rename_i hinfinite
    have hlast : (unpackExponent b).toNat ≠ 2047 :=
      fun heq => hinfinite (BitVec.eq_of_toNat_eq heq)
    split at h
    · rename_i hzero
      split at h
      · cases h
      · cases h
        rw [hzero, hbias]
        exact ⟨⟨by omega, by decide, .inr (by decide)⟩, by decide⟩
    · rename_i hpositive
      have hpos : (unpackExponent b).toNat ≠ 0 := fun heq => hpositive (BitVec.eq_of_toNat_eq heq)
      have hvalue := toNat_one_append (unpackMantissa b)
      cases h
      rw [hbias, hvalue]
      refine ⟨⟨?_, ?_, .inl ?_⟩, ?_⟩ <;> omega

theorem unpack_subnormal (s : Sign) {m : Nat} (hm : 0 < m) {mantissa : BitVec 52}
    (hmantissa : mantissa.toNat = m) :
    UnpackedFloat.unpack Format.binary64 (packComponents Format.binary64 s 0#11 mantissa) =
      .finite s m (-1074) hm := by
  subst hmantissa
  have hne : mantissa ≠ 0#52 := by
    rintro rfl
    exact absurd hm (by decide)
  unfold UnpackedFloat.unpack
  simp only [unpackExponent_packComponents, unpackMantissa_packComponents,
    unpackSign_packComponents, Sign.ofBitVec_toBitVec]
  rw [if_neg (by decide), if_pos trivial, dif_neg hne]
  rfl

theorem unpack_normal (s : Sign) {m : Nat} (hm : 0 < m) {e : Int} {exponent : BitVec 11}
    {mantissa : BitVec 52} (hmantissa : 2 ^ 52 + mantissa.toNat = m)
    (hexponent : (exponent.toNat : Int) = e + 1075) (hpos : 0 < exponent.toNat)
    (hlt : exponent.toNat < 2047) :
    UnpackedFloat.unpack Format.binary64 (packComponents Format.binary64 s exponent mantissa) =
      .finite s m e hm := by
  obtain rfl : (1#1 ++ mantissa).toNat = m := by rw [toNat_one_append, hmantissa]
  obtain rfl : (exponent.toNat : Int) - 1075 = e := by omega
  have hne : exponent ≠ -1#11 := by
    rintro rfl
    exact absurd hlt (by decide)
  have hne' : exponent ≠ 0#11 := by
    rintro rfl
    exact absurd hpos (by decide)
  unfold UnpackedFloat.unpack
  simp only [unpackExponent_packComponents, unpackMantissa_packComponents,
    unpackSign_packComponents, Sign.ofBitVec_toBitVec]
  rw [if_neg hne, if_neg hne']
  rfl

theorem unpack_packedInfinity (s : Sign) :
    UnpackedFloat.unpack Format.binary64 (packedInfinity Format.binary64 s) = .infinity s := by
  unfold UnpackedFloat.unpack packedInfinity
  simp only [unpackExponent_packComponents, unpackMantissa_packComponents,
    unpackSign_packComponents, Sign.ofBitVec_toBitVec]
  rfl

/-- What is packed is unpacked again unless it is too large. -/
theorem unpack_pack_finite (s : Sign) {m : Nat} {e : Int} (hm : 0 < m) (h : Canonical m e) :
    UnpackedFloat.unpack Format.binary64
        (UnpackedFloat.pack Format.binary64 (.finite s m e hm)) =
      if e ≤ 971 then .finite s m e hm else .infinity s := by
  have hleast := h.least_le
  have hsmall := h.lt
  have hbiased : (e + (Format.binary64.exponentBias : Nat) + (52 : Nat)).toNat =
      (e + 1075).toNat := by
    show (e + (1023 : Nat) + (52 : Nat)).toNat = _
    omega
  rw [UnpackedFloat.pack]
  dsimp only
  rw [hbiased]
  by_cases hlarge : e ≤ 971
  · have hexponent : (BitVec.ofNat 11 (e + 1075).toNat).toNat = (e + 1075).toNat :=
      Nat.mod_eq_of_lt (by omega)
    have hmantissa : (BitVec.ofNat 52 m).toNat = m % 2 ^ 52 := BitVec.toNat_ofNat m 52
    rw [if_neg (show ¬2 ^ 11 ≤ (e + 1075).toNat + 1 by omega), if_pos hlarge]
    by_cases hfull : 2 ^ 52 ≤ m
    · have hlog : m.log2 + 1 = Format.binary64.mantissaBits :=
        congrArg (· + 1) ((Nat.log2_eq_iff hm.ne').2 ⟨hfull, hsmall⟩)
      rw [if_pos hlog]
      exact unpack_normal s hm (by omega) (by omega) (by omega) (by omega)
    · have hlog : m.log2 + 1 ≠ Format.binary64.mantissaBits := by
        have := (Nat.log2_lt hm.ne').2 (not_le.1 hfull)
        show m.log2 + 1 ≠ 53
        omega
      obtain rfl := h.full.resolve_left hfull
      rw [if_neg hlog]
      exact unpack_subnormal s hm (by omega)
  · rw [if_pos (show 2 ^ 11 ≤ (e + 1075).toNat + 1 by omega), if_neg hlarge]
    exact unpack_packedInfinity s

theorem isCanonical_unpack {b : BitVec Format.binary64.numBits}
    (h : (UnpackedFloat.unpack Format.binary64 b).isFinite) :
    IsCanonical (UnpackedFloat.unpack Format.binary64 b) := by
  generalize hb : UnpackedFloat.unpack Format.binary64 b = a at h ⊢
  cases a with
  | notANumber | infinity s => cases h
  | zero s => exact .zero s
  | finite s m e hm => exact .finite s hm (canonical_of_unpack hb).1

/-- What is packed is no less than a number that it was no less than before: if it is too large it
becomes infinite, and if it is below zero it is not too large. -/
theorem place_le_unpack_pack {b : BitVec Format.binary64.numBits}
    (hb : (UnpackedFloat.unpack Format.binary64 b).isFinite) {a : UnpackedFloat}
    (ha : IsCanonical a) (h : place (UnpackedFloat.unpack Format.binary64 b) ≤ place a) :
    place (UnpackedFloat.unpack Format.binary64 b) ≤
      place (UnpackedFloat.unpack Format.binary64 (UnpackedFloat.pack Format.binary64 a)) := by
  cases ha with
  | zero s =>
    rw [UnpackedFloat.pack, unpack_packedZero]
    exact h
  | @finite s m e hm ha =>
    rw [unpack_pack_finite s hm ha]
    split
    · exact h
    · rename_i hlarge
      generalize heq : UnpackedFloat.unpack Format.binary64 b = c at hb h ⊢
      cases c with
      | notANumber | infinity t => cases hb
      | zero t => cases s <;> simp [place, Prod.Lex.toLex_le_toLex] at h ⊢
      | finite t n f hn =>
        have hsmall := (canonical_of_unpack heq).2
        cases s <;> cases t <;> simp [place, Prod.Lex.toLex_le_toLex] at h ⊢
        omega

end Double

open Double

instance : Scalar.Cumulative Float where
  le_add := by
    intro a b ha hb h
    have hca := isCanonical_unpack ha
    have hcb := isCanonical_unpack hb
    obtain ⟨-, -, h⟩ := le_iff_place.1 h
    have hunits : 0 ≤ units b.toModel.unpack := (place_le_iff_units (.zero .positive) hcb).1 h
    obtain ⟨hc, hle⟩ := units_le_add hca hcb hunits
    refine le_iff_place.2 ⟨isNaN_of_isFinite ha, isNaN_unpack_pack (isNaN_add ha hb), ?_⟩
    exact place_le_unpack_pack ha hc ((place_le_iff_units hca hc).2 hle)

end MusicMacro
