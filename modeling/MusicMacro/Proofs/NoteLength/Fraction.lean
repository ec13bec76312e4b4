import Mathlib.Algebra.Order.Ring.Rat
import Mathlib.Data.Nat.Cast.Field
import Mathlib.Data.Rat.Lemmas
import Mathlib.Tactic.FieldSimp
import Mathlib.Tactic.NormNum
import Mathlib.Tactic.Ring
import MusicMacro.NoteLength

/-!
# Note lengths as fractions

A normal note length is a fraction in lowest terms, and the fraction tells which length it is. A sum
or a product that is there is the sum or the product of the fractions.

* `toRat` — the fraction.
* `eq_of_toRat` — equal fractions are equal lengths.
* `toRat_of_add?`, `toRat_of_mul?` — sums and products.
* `mul?_eq_some_iff` — a product is there if and only if its terms fit, in lowest terms.
* `fits_add` — what a sum yields fits in any case.
-/

namespace MusicMacro.NoteLength

variable {a b c : NoteLength}

/-- The length as a rational number. -/
def toRat (a : NoteLength) : Rat := (a.numerator : Rat) / (a.denominator : Rat)

theorem toRat_nonneg (a : NoteLength) : 0 ≤ a.toRat :=
  div_nonneg (Nat.cast_nonneg _) (Nat.cast_nonneg _)

theorem toRat_zero : zero.toRat = 0 := zero_div _

theorem toRat_half : half.toRat = 1 / 2 := by
  unfold toRat half
  norm_num

/-- A length is zero if and only if its fraction is. -/
theorem isZero_iff (ha : a.Normal) : a.isZero = true ↔ a.toRat = 0 := by
  have hd : (a.denominator : Rat) ≠ 0 := Nat.cast_ne_zero.2 ha.1.ne'
  unfold isZero toRat
  rw [beq_iff_eq, div_eq_zero_iff, or_iff_left hd, Nat.cast_eq_zero]

theorem toRat_reduced {n d : Nat} (h : 0 < d) : (reduced n d).toRat = (n : Rat) / (d : Rat) := by
  have hg : (Nat.gcd n d : Rat) ≠ 0 := Nat.cast_ne_zero.2 (Nat.gcd_pos_of_pos_right n h).ne'
  unfold toRat reduced
  rw [Nat.cast_div (Nat.gcd_dvd_left n d) hg, Nat.cast_div (Nat.gcd_dvd_right n d) hg]
  exact div_div_div_cancel_right₀ hg _ _

/-- Lengths in lowest terms with the same fraction are the same. -/
theorem eq_of_toRat (ha : a.Normal) (hb : b.Normal) (h : a.toRat = b.toRat) : a = b := by
  have hterms := Rat.div_int_inj (a := a.numerator) (b := a.denominator) (c := b.numerator)
    (d := b.denominator) (by exact_mod_cast ha.1) (by exact_mod_cast hb.1) ha.2 hb.2 h
  cases a
  cases b
  simp only [Nat.cast_inj] at hterms
  rw [hterms.1, hterms.2]

/-! ## Sums and products that are there -/

/-- The common denominator of a sum is the least common multiple. -/
theorem div_gcd_mul (m n : Nat) : m / Nat.gcd m n * n = Nat.lcm m n := by
  rw [Nat.lcm_eq_mul_div, Nat.div_mul_right_comm (Nat.gcd_dvd_left m n)]

theorem toRat_of_add? (ha : a.Normal) (hb : b.Normal) (h : add? a b = some c) :
    c.toRat = a.toRat + b.toRat := by
  have hsome := h
  simp only [add?, bind, Option.bind_eq_some_iff, fit?_eq_some] at hsome
  obtain ⟨d, ⟨-, rfl⟩, m, ⟨-, rfl⟩, n, ⟨-, rfl⟩, s, ⟨-, rfl⟩, ⟨⟩⟩ := hsome
  rw [div_gcd_mul]
  generalize hlcm : Nat.lcm a.denominator b.denominator = d
  have hpos : 0 < d := hlcm ▸ Nat.lcm_pos ha.1 hb.1
  have hda : a.denominator ∣ d := hlcm ▸ Nat.dvd_lcm_left _ _
  have hdb : b.denominator ∣ d := hlcm ▸ Nat.dvd_lcm_right _ _
  have ha0 : (a.denominator : Rat) ≠ 0 := Nat.cast_ne_zero.2 ha.1.ne'
  have hb0 : (b.denominator : Rat) ≠ 0 := Nat.cast_ne_zero.2 hb.1.ne'
  have hd0 : (d : Rat) ≠ 0 := Nat.cast_ne_zero.2 hpos.ne'
  rw [toRat_reduced hpos]
  unfold toRat
  push_cast [Nat.cast_div hda ha0, Nat.cast_div hdb hb0]
  field_simp

/-- The product in lowest terms, reduced crosswise. -/
def crossed (a b : NoteLength) : NoteLength :=
  let g := Nat.gcd a.numerator b.denominator
  let h := Nat.gcd a.denominator b.numerator
  ⟨a.numerator / g * (b.numerator / h), a.denominator / h * (b.denominator / g)⟩

/-- To reduce crosswise is enough for lowest terms. -/
theorem normal_crossed (ha : a.Normal) (hb : b.Normal) : (crossed a b).Normal := by
  have hg : 0 < Nat.gcd a.numerator b.denominator := Nat.gcd_pos_of_pos_right _ hb.1
  have hh : 0 < Nat.gcd a.denominator b.numerator := Nat.gcd_pos_of_pos_left _ ha.1
  have haa : Nat.Coprime (a.numerator / Nat.gcd a.numerator b.denominator)
      (a.denominator / Nat.gcd a.denominator b.numerator) :=
    (Nat.Coprime.coprime_div_left ha.2 (Nat.gcd_dvd_left _ _)).coprime_div_right
      (Nat.gcd_dvd_left _ _)
  have hab : Nat.Coprime (a.numerator / Nat.gcd a.numerator b.denominator)
      (b.denominator / Nat.gcd a.numerator b.denominator) := Nat.coprime_div_gcd_div_gcd hg
  have hba : Nat.Coprime (b.numerator / Nat.gcd a.denominator b.numerator)
      (a.denominator / Nat.gcd a.denominator b.numerator) := (Nat.coprime_div_gcd_div_gcd hh).symm
  have hbb : Nat.Coprime (b.numerator / Nat.gcd a.denominator b.numerator)
      (b.denominator / Nat.gcd a.numerator b.denominator) :=
    (Nat.Coprime.coprime_div_left hb.2 (Nat.gcd_dvd_right _ _)).coprime_div_right
      (Nat.gcd_dvd_right _ _)
  refine ⟨Nat.mul_pos ?_ ?_, ?_⟩
  · exact Nat.div_pos (Nat.le_of_dvd ha.1 (Nat.gcd_dvd_left _ _)) hh
  · exact Nat.div_pos (Nat.le_of_dvd hb.1 (Nat.gcd_dvd_right _ _)) hg
  · exact Nat.Coprime.mul_left (Nat.Coprime.mul_right haa hab) (Nat.Coprime.mul_right hba hbb)

theorem toRat_crossed (ha : a.Normal) (hb : b.Normal) :
    (crossed a b).toRat = a.toRat * b.toRat := by
  have hg : (Nat.gcd a.numerator b.denominator : Rat) ≠ 0 :=
    Nat.cast_ne_zero.2 (Nat.gcd_pos_of_pos_right _ hb.1).ne'
  have hh : (Nat.gcd a.denominator b.numerator : Rat) ≠ 0 :=
    Nat.cast_ne_zero.2 (Nat.gcd_pos_of_pos_left _ ha.1).ne'
  have ha0 : (a.denominator : Rat) ≠ 0 := Nat.cast_ne_zero.2 ha.1.ne'
  have hb0 : (b.denominator : Rat) ≠ 0 := Nat.cast_ne_zero.2 hb.1.ne'
  unfold toRat crossed
  dsimp only
  rw [Nat.cast_mul, Nat.cast_mul, Nat.cast_div (Nat.gcd_dvd_left _ _) hg,
    Nat.cast_div (Nat.gcd_dvd_right _ _) hh, Nat.cast_div (Nat.gcd_dvd_left _ _) hh,
    Nat.cast_div (Nat.gcd_dvd_right _ _) hg]
  field_simp

/-! ## Terms that fit -/

/-- The two terms fit in 64 bits. -/
def Fits (a : NoteLength) : Prop := a.numerator ≤ greatestTerm ∧ a.denominator ≤ greatestTerm

instance (a : NoteLength) : Decidable a.Fits := inferInstanceAs (Decidable (_ ∧ _))

theorem fits_reduced {n d : Nat} (hn : n ≤ greatestTerm) (hd : d ≤ greatestTerm) :
    (reduced n d).Fits :=
  ⟨(Nat.div_le_self _ _).trans hn, (Nat.div_le_self _ _).trans hd⟩

theorem fits_add (ha : a.Fits) : (a + b).Fits := by
  cases h : add? a b with
  | none =>
    rw [add_of_none h]
    exact ha
  | some c =>
    rw [add_of_some h]
    simp only [add?, bind, Option.bind_eq_some_iff, fit?_eq_some] at h
    obtain ⟨d, ⟨hd, rfl⟩, m, -, n, -, s, ⟨hs, rfl⟩, ⟨⟩⟩ := h
    exact fits_reduced hs hd

/-- A product of lengths in lowest terms is there if and only if its terms fit. -/
theorem mul?_eq (ha : a.Normal) (hb : b.Normal) :
    mul? a b = if (crossed a b).Fits then some (crossed a b) else none := by
  have hreduced := reduced_of_normal (normal_crossed ha hb)
  show ((fit? (crossed a b).numerator).bind fun n =>
    (fit? (crossed a b).denominator).bind fun d => some (reduced n d)) = _
  unfold fit?
  by_cases hn : (crossed a b).numerator ≤ greatestTerm
  · by_cases hd : (crossed a b).denominator ≤ greatestTerm
    · rw [if_pos hn, if_pos hd, if_pos (show (crossed a b).Fits from ⟨hn, hd⟩)]
      exact congrArg some hreduced
    · rw [if_pos hn, if_neg hd, if_neg fun h : (crossed a b).Fits => hd h.2]
      rfl
  · rw [if_neg hn, if_neg fun h : (crossed a b).Fits => hn h.1]
    rfl

theorem mul?_eq_some_iff (ha : a.Normal) (hb : b.Normal) :
    mul? a b = some c ↔ c.Normal ∧ c.Fits ∧ c.toRat = a.toRat * b.toRat := by
  have hnormal := normal_crossed ha hb
  have hvalue := toRat_crossed ha hb
  rw [mul?_eq ha hb, Option.ite_none_right_eq_some]
  constructor
  · rintro ⟨hfits, heq⟩
    cases heq
    exact ⟨hnormal, hfits, hvalue⟩
  · rintro ⟨hc, hfits, h⟩
    have heq : crossed a b = c := eq_of_toRat hnormal hc (hvalue.trans h.symm)
    exact ⟨heq ▸ hfits, congrArg some heq⟩

theorem toRat_of_mul? (ha : a.Normal) (hb : b.Normal) (h : mul? a b = some c) :
    c.toRat = a.toRat * b.toRat := ((mul?_eq_some_iff ha hb).1 h).2.2

end MusicMacro.NoteLength
