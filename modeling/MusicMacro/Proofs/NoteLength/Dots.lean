import Mathlib.Algebra.BigOperators.Group.Finset.Basic
import MusicMacro.Proofs.NoteLength.Evaluation

/-!
# How much dots add

Whatever overflows, holds and dots make no note shorter. A dot adds half of what the dot before it
added as long as the half fits in 64 bits, and from then on each dot adds the same again. So dots
add less than the base length if all the halves fit, and more and more of it otherwise.

* `HalvesFit` — a length can be halved a number of times.
* `halved`, `toRat_halved` — what the dots add.
* `sum_halved_le` — what they add together.
* `le_extend`, `extend_le` — a run of holds and dots.
* `value_of_dots` — bounds for the length that is written.
-/

namespace MusicMacro

open Finset (range sum_range_succ sum_range_succ')

namespace NoteLength

variable {a b c : NoteLength}

/-! ## Operations that may overflow -/

theorem le_add (ha : a.Normal) (hb : b.Normal) : a.toRat ≤ (a + b).toRat := by
  cases h : add? a b with
  | none => rw [add_of_none h]
  | some c =>
    rw [add_of_some h, toRat_of_add? ha hb h]
    exact le_add_of_nonneg_right b.toRat_nonneg

theorem add_le (ha : a.Normal) (hb : b.Normal) : (a + b).toRat ≤ a.toRat + b.toRat := by
  cases h : add? a b with
  | none =>
    rw [add_of_none h]
    exact le_add_of_nonneg_right b.toRat_nonneg
  | some c =>
    rw [add_of_some h]
    exact (toRat_of_add? ha hb h).le

theorem mul_half_le (ha : a.Normal) : (a * half).toRat ≤ a.toRat := by
  cases h : mul? a half with
  | none => rw [mul_of_none h]
  | some c =>
    have hnonneg := a.toRat_nonneg
    rw [mul_of_some h, toRat_of_mul? ha normal_half h, toRat_half]
    linarith

/-! ## Halves -/

/-- Half of the length, taken as often as that, is a fraction whose terms fit in 64 bits. -/
def HalvesFit (a : NoteLength) (m : Nat) : Prop :=
  ∃ c : NoteLength, c.Normal ∧ c.Fits ∧ c.toRat = a.toRat / 2 ^ m

/-- Halving divides the numerator and multiplies the denominator. -/
theorem terms_of_halves (ha : a.Normal) (hc : c.Normal) {k : Nat}
    (h : c.toRat = a.toRat / 2 ^ k) :
    c.numerator ∣ a.numerator ∧ a.denominator ∣ c.denominator := by
  have ha0 : (a.denominator : Rat) ≠ 0 := Nat.cast_ne_zero.2 ha.1.ne'
  have hc0 : (c.denominator : Rat) ≠ 0 := Nat.cast_ne_zero.2 hc.1.ne'
  have hcross : c.numerator * a.denominator * 2 ^ k = c.denominator * a.numerator := by
    unfold toRat at h
    field_simp at h
    exact_mod_cast h
  constructor
  · apply Nat.Coprime.dvd_of_dvd_mul_left hc.2
    rw [← hcross, mul_assoc]
    exact Nat.dvd_mul_right _ _
  · apply Nat.Coprime.dvd_of_dvd_mul_right (Nat.Coprime.symm ha.2)
    rw [← hcross, mul_right_comm]
    exact Nat.dvd_mul_left _ _

theorem halvesFit_of_le (ha : a.Normal) (hf : a.Fits) {k m : Nat} (h : a.HalvesFit m)
    (hkm : k ≤ m) : a.HalvesFit k := by
  obtain ⟨c, hc, hcf, hcv⟩ := h
  -- fewer halvings leave a numerator that divides that of the length, and a denominator that
  -- divides that of the last half, so both fit
  have hpos : 0 < a.denominator * 2 ^ k := Nat.mul_pos ha.1 (Nat.two_pow_pos k)
  have hb : (reduced a.numerator (a.denominator * 2 ^ k)).Normal := normal_reduced hpos
  have hbv : (reduced a.numerator (a.denominator * 2 ^ k)).toRat = a.toRat / 2 ^ k := by
    rw [toRat_reduced hpos, toRat]
    push_cast
    exact (div_div _ _ _).symm
  have hcb : c.toRat = (reduced a.numerator (a.denominator * 2 ^ k)).toRat / 2 ^ (m - k) := by
    rw [hcv, hbv, div_div, ← pow_add, Nat.add_sub_cancel' hkm]
  refine ⟨_, hb, ⟨?_, ?_⟩, hbv⟩
  · exact (Nat.div_le_self _ _).trans hf.1
  · exact (Nat.le_of_dvd hc.1 (terms_of_halves hb hc hcb).2).trans hcf.2

/-- The length after as many halvings; one that overflows leaves the length as it is. -/
def halved (a : NoteLength) : Nat → NoteLength
  | 0 => a
  | m + 1 => halved a m * half

theorem normal_halved (ha : a.Normal) (m : Nat) : (halved a m).Normal := by
  induction m with
  | zero => exact ha
  | succ m ih => exact normal_mul ih normal_half

theorem toRat_halved (ha : a.Normal) (hf : a.Fits) {m : Nat} (h : a.HalvesFit m) :
    (halved a m).toRat = a.toRat / 2 ^ m := by
  induction m with
  | zero => simp [halved]
  | succ m ih =>
    obtain ⟨c, hc, hcf, hcv⟩ := h
    have ih := ih (halvesFit_of_le ha hf ⟨c, hc, hcf, hcv⟩ m.le_succ)
    have hproduct : mul? (halved a m) half = some c := by
      apply (mul?_eq_some_iff (normal_halved ha m) normal_half).2
      refine ⟨hc, hcf, ?_⟩
      rw [hcv, ih, toRat_half, pow_succ]
      ring
    show (mul (halved a m) half).toRat = _
    rw [mul, hproduct]
    exact hcv

theorem halved_le (ha : a.Normal) {m n : Nat} (hmn : m ≤ n) :
    (halved a n).toRat ≤ (halved a m).toRat := by
  induction n, hmn using Nat.le_induction with
  | base => exact le_rfl
  | succ n _ ih => exact (mul_half_le (normal_halved ha n)).trans ih

/-! ## What dots add together -/

/-- As many dots as halves fit leave out only what the last of them adds. -/
theorem sum_halved (ha : a.Normal) (hf : a.Fits) {m : Nat} (h : a.HalvesFit m) :
    ∑ i ∈ range m, (halved a (i + 1)).toRat = a.toRat * (1 - 1 / 2 ^ m) := by
  induction m with
  | zero => simp
  | succ m ih =>
    rw [sum_range_succ, ih (halvesFit_of_le ha hf h m.le_succ), toRat_halved ha hf h, pow_succ]
    field_simp
    ring

/-- More dots add at most the last half that is known to fit. -/
theorem sum_halved_le (ha : a.Normal) (hf : a.Fits) {m n : Nat} (h : a.HalvesFit m)
    (hmn : m ≤ n) :
    ∑ i ∈ range n, (halved a (i + 1)).toRat ≤
      a.toRat * (1 + ((n : Rat) - m - 1) / 2 ^ m) := by
  induction n, hmn using Nat.le_induction with
  | base =>
    rw [sum_halved ha hf h]
    apply le_of_eq
    ring
  | succ n hmn ih =>
    have hlast := halved_le ha (hmn.trans n.le_succ)
    rw [toRat_halved ha hf h] at hlast
    rw [sum_range_succ]
    calc ∑ i ∈ range n, (halved a (i + 1)).toRat + (halved a (n + 1)).toRat
        ≤ a.toRat * (1 + ((n : Rat) - m - 1) / 2 ^ m) + a.toRat / 2 ^ m := add_le_add ih hlast
      _ = a.toRat * (1 + (((n + 1 : Nat) : Rat) - m - 1) / 2 ^ m) := by
        push_cast
        ring

end NoteLength

/-! ## Holds and dots that may overflow -/

namespace LengthText

open NoteLength (halved normal_halved le_add add_le normal_add normal_mul normal_half normal_zero
  fits_add sum_halved_le toRat_nonneg isZero_iff)

variable {base length : NoteLength}

theorem le_extend (hb : base.Normal) (suffixes : List Suffix) (hl : length.Normal)
    {dot : NoteLength} (hd : dot.Normal) :
    length.toRat ≤ (extend base suffixes length dot).toRat := by
  induction suffixes generalizing length dot with
  | nil => exact le_rfl
  | cons s suffixes ih =>
    cases s with
    | hold => exact (le_add hl hb).trans (ih (normal_add hl hb) hd)
    | dot => exact (le_add hl hd).trans (ih (normal_add hl hd) (normal_mul hd normal_half))

/-- Suffixes add at most the base length for each hold, and what each dot adds. -/
theorem extend_le (hb : base.Normal) (suffixes : List Suffix) (hl : length.Normal) (k : Nat) :
    (extend base suffixes length (halved base k)).toRat ≤
      length.toRat + suffixes.count .hold * base.toRat +
        ∑ i ∈ range (suffixes.count .dot), (halved base (i + k)).toRat := by
  induction suffixes generalizing length k with
  | nil => simp [extend]
  | cons s suffixes ih =>
    cases s with
    | hold =>
      have hrest := ih (normal_add hl hb) k
      have hadd := add_le hl hb
      rw [extend, List.count_cons_self, List.count_cons_of_ne (by decide)]
      push_cast
      linarith
    | dot =>
      have hrest := ih (normal_add hl (normal_halved hb k)) (k + 1)
      have hadd := add_le hl (normal_halved hb k)
      have hshift : ∀ i, i + 1 + k = i + (k + 1) := by omega
      rw [extend, List.count_cons_self, List.count_cons_of_ne (by decide), sum_range_succ',
        zero_add]
      simp only [hshift]
      exact hrest.trans (by linarith)

theorem fits_sum {lengths : List NoteLength} {sum : NoteLength} (hs : sum.Fits) :
    (lengths.foldl (· + ·) sum).Fits := by
  induction lengths generalizing sum with
  | nil => exact hs
  | cons a lengths ih => exact ih (fits_add hs)

theorem fits_base (t : LengthText) {default : NoteLength} (h : default.Fits) :
    (t.base default).Fits := by
  unfold base
  dsimp only
  split
  · exact h
  · exact fits_sum (by decide)

theorem base_pos (t : LengthText) {default : NoteLength} (h : 0 < default.toRat) :
    0 < (t.base default).toRat := by
  unfold base
  dsimp only
  split
  · exact h
  · next hzero =>
    rw [isZero_iff t.normal_parts] at hzero
    exact (toRat_nonneg _).lt_of_ne (Ne.symm hzero)

/-- The bound for a number of dots, by any number of halvings that fit. -/
theorem value_le (t : LengthText) {default : NoteLength} (hd : default.Normal)
    (hf : default.Fits) {m : Nat} (hm : m ≤ t.suffixes.count .dot)
    (h : (t.base default).HalvesFit m) :
    (t.value default).toRat ≤
      (2 + t.suffixes.count .hold + ((t.suffixes.count .dot : Rat) - m - 1) / 2 ^ m) *
        (t.base default).toRat := by
  have hb := t.normal_base hd
  have hextend := extend_le hb t.suffixes hb 1
  have hsum := sum_halved_le hb (t.fits_base hf) h hm
  unfold value
  dsimp only
  refine hextend.trans ?_
  linarith

end LengthText

/-- A length that is read is at least the base length, whatever overflows. It is less than one base
length more than the holds make it if the base length can be halved as often as there are dots, and
if it can be halved only `m` times then each further dot may add its share `2 ^ -m` once more. -/
theorem LengthText.value_of_dots (tokens : LengthTokens) (cs : List Char) {default : NoteLength}
    (hd : default.Normal) (hf : default.Fits) (hpos : 0 < default.toRat) :
    let t := (LengthText.read tokens cs).1
    let base := t.base default
    let holds := t.suffixes.count .hold
    let dots := t.suffixes.count .dot
    base.toRat ≤ (t.value default).toRat ∧
    (base.HalvesFit dots → (t.value default).toRat < (2 + holds) * base.toRat) ∧
    ∀ m ≤ dots, base.HalvesFit m →
      (t.value default).toRat ≤ (2 + holds + ((dots : Rat) - m - 1) / 2 ^ m) * base.toRat := by
  intro t base holds dots
  have hb := t.normal_base hd
  refine ⟨le_extend hb _ hb (NoteLength.normal_mul hb NoteLength.normal_half), fun h => ?_, ?_⟩
  · have hle := t.value_le hd hf le_rfl h
    have hbase : 0 < base.toRat := t.base_pos hpos
    refine hle.trans_lt (mul_lt_mul_of_pos_right ?_ hbase)
    have hlast : (0 : Rat) < 1 / 2 ^ dots := one_div_pos.2 (pow_pos two_pos dots)
    have hall : ((dots : Rat) - dots - 1) / 2 ^ dots = -(1 / 2 ^ dots) := by ring
    show 2 + (holds : Rat) + ((dots : Rat) - dots - 1) / 2 ^ dots < 2 + holds
    rw [hall]
    linarith
  · intro m hm h
    exact t.value_le hd hf hm h

/-- A quarter with 62 dots. -/
def dottedQuarter : List Char := '4' :: List.replicate 62 '.'

theorem read_dottedQuarter :
    (LengthText.read Dialect.standardLength dottedQuarter).1 = ⟨[4], List.replicate 62 .dot⟩ := by
  decide +kernel

/-- A quarter can be halved 61 times, so 62 dots at most double it. -/
theorem LengthText.value_of_dots_quarter :
    let t := (LengthText.read Dialect.standardLength dottedQuarter).1
    t.base .quarter = .quarter ∧ t.suffixes.count .hold = 0 ∧ t.suffixes.count .dot = 62 ∧
      NoteLength.quarter.HalvesFit 61 ∧ (t.value .quarter).toRat ≤ 2 * (1 / 4) := by
  intro t
  have ht : t = ⟨[4], List.replicate 62 .dot⟩ := read_dottedQuarter
  have hbase : t.base .quarter = .quarter := by rw [ht]; decide
  have hholds : t.suffixes.count .hold = 0 := by rw [ht]; decide
  have hdots : t.suffixes.count .dot = 62 := by rw [ht]; decide
  have hd : NoteLength.quarter.Normal := by decide
  have hquarter : NoteLength.quarter.toRat = 1 / 4 := by
    norm_num [NoteLength.toRat, NoteLength.quarter]
  have hpos : 0 < NoteLength.quarter.toRat := by rw [hquarter]; norm_num
  have hfit : NoteLength.quarter.HalvesFit 61 := by
    refine ⟨⟨1, 2 ^ 63⟩, by decide, by decide, ?_⟩
    norm_num [NoteLength.toRat, NoteLength.quarter]
  refine ⟨hbase, hholds, hdots, hfit, ?_⟩
  have hbounds :=
    LengthText.value_of_dots Dialect.standardLength dottedQuarter hd (by decide) hpos
  have hle : (t.value .quarter).toRat ≤ (2 + t.suffixes.count .hold +
      ((t.suffixes.count .dot : Rat) - (61 : Nat) - 1) / 2 ^ 61) * (t.base .quarter).toRat :=
    hbounds.2.2 61 (hdots.symm ▸ by decide) (hbase.symm ▸ hfit)
  rw [hbase, hholds, hdots, hquarter] at hle
  exact hle.trans_eq (by norm_num)

/-- The last of the 62 dots adds as much as the one before it, so the quarter is doubled. -/
theorem LengthText.dots_double_quarter :
    let t := (LengthText.read Dialect.standardLength dottedQuarter).1
    ¬(t.value .quarter).toRat < (2 + t.suffixes.count .hold) * (t.base .quarter).toRat := by
  intro t
  have ht : t = ⟨[4], List.replicate 62 .dot⟩ := read_dottedQuarter
  have hbase : t.base .quarter = ⟨1, 4⟩ := by rw [ht]; decide
  have hvalue : t.value .quarter = ⟨1, 2⟩ := by rw [ht]; decide +kernel
  have hholds : t.suffixes.count .hold = 0 := by rw [ht]; decide
  rw [hbase, hvalue, hholds]
  norm_num [NoteLength.toRat]

end MusicMacro
