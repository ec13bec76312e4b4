import MusicMacro.Proofs.NoteLength.Fraction

/-!
# Exact or unchanged

Lengths are computed with two 64-bit terms. Whatever is built from fractions and from the numbers of
the text by sums and products is in lowest terms, so that lengths are equal if and only if their
terms are. A sum or a product is either the exact one or its left operand. Which of the two is
decided differently: a sum stands back as soon as a term on the way does not fit, also where the
result would fit in lowest terms, and a product only where the result itself does not fit.

* `Expression` — how lengths are built.
* `SumFits`, `exists_add?_iff` — the terms on the way of a sum.
* `Representable`, `exists_mul?_iff` — the lowest terms of a product.
* `value_exact_or_left` — the result.
-/

namespace MusicMacro.NoteLength

variable {a b : NoteLength}

/-- A length built by arithmetic: fractions and the lengths of numbers, both of 64-bit terms, and
sums and products of such. -/
inductive Expression
  | fraction (n d : UInt64) (h : d ≠ 0)
  | number (n : UInt64) (h : n ≠ 0)
  | sum (e f : Expression)
  | product (e f : Expression)

/-- The length that an expression stands for. -/
def Expression.value? : Expression → Option NoteLength
  | fraction n d _ => ofFraction? n.toNat d.toNat
  | number n _ => ofNumber? n.toNat
  | sum e f => do return (← e.value?) + (← f.value?)
  | product e f => do return (← e.value?) * (← f.value?)

/-! ## Sums -/

/-- Every term on the way to the sum fits in 64 bits: the common denominator, the two numerators
over it, and the sum of the numerators. -/
structure SumFits (a b : NoteLength) : Prop where
  denominator : Nat.lcm a.denominator b.denominator ≤ greatestTerm
  left : Nat.lcm a.denominator b.denominator / a.denominator * a.numerator ≤ greatestTerm
  right : Nat.lcm a.denominator b.denominator / b.denominator * b.numerator ≤ greatestTerm
  numerator : Nat.lcm a.denominator b.denominator / a.denominator * a.numerator +
    Nat.lcm a.denominator b.denominator / b.denominator * b.numerator ≤ greatestTerm

/-- A sum is there if and only if no term on the way overflows. -/
theorem exists_add?_iff : (∃ c, add? a b = some c) ↔ SumFits a b := by
  simp only [add?, bind, Option.bind_eq_some_iff, fit?_eq_some, div_gcd_mul]
  constructor
  · rintro ⟨c, d, ⟨hd, rfl⟩, m, ⟨hm, rfl⟩, n, ⟨hn, rfl⟩, s, ⟨hs, rfl⟩, -⟩
    exact ⟨hd, hm, hn, hs⟩
  · intro h
    exact ⟨_, _, ⟨h.denominator, rfl⟩, _, ⟨h.left, rfl⟩, _, ⟨h.right, rfl⟩, _, ⟨h.numerator, rfl⟩,
      rfl⟩

theorem toRat_add_of_sumFits (ha : a.Normal) (hb : b.Normal) (h : SumFits a b) :
    (a + b).toRat = a.toRat + b.toRat := by
  obtain ⟨c, hc⟩ := exists_add?_iff.2 h
  rw [add_of_some hc]
  exact toRat_of_add? ha hb hc

theorem add_eq_left (h : ¬SumFits a b) : a + b = a := by
  cases hc : add? a b with
  | none => exact add_of_none hc
  | some c => exact absurd (exists_add?_iff.1 ⟨c, hc⟩) h

-- the sum is one 6000000000000000000th, but the common denominator is beyond 64 bits
example : (⟨1, 10000000000000000000⟩ + ⟨1, 15000000000000000000⟩ : NoteLength) =
    ⟨1, 10000000000000000000⟩ := by decide

/-! ## Products -/

/-- The fraction has lowest terms that fit in 64 bits. -/
def Representable (q : Rat) : Prop := q.num ≤ (greatestTerm : Int) ∧ q.den ≤ greatestTerm

/-- The terms of a normal length are those of its fraction. -/
theorem representable_iff (ha : a.Normal) : Representable a.toRat ↔ a.Fits := by
  have hpos : (0 : Int) < (a.denominator : Int) := by exact_mod_cast ha.1
  have hcast : a.toRat = ((a.numerator : Int) : Rat) / ((a.denominator : Int) : Rat) := by
    simp [toRat]
  have hnum : a.toRat.num = (a.numerator : Int) := hcast ▸ Rat.num_div_eq_of_coprime hpos ha.2
  have hden : (a.toRat.den : Int) = (a.denominator : Int) :=
    hcast ▸ Rat.den_div_eq_of_coprime hpos ha.2
  unfold Representable Fits
  omega

/-- A product is there if and only if the exact one can be represented. -/
theorem exists_mul?_iff (ha : a.Normal) (hb : b.Normal) :
    (∃ c, mul? a b = some c) ↔ Representable (a.toRat * b.toRat) := by
  have hcrossed := normal_crossed ha hb
  rw [← toRat_crossed ha hb, representable_iff hcrossed, mul?_eq ha hb]
  by_cases hfits : (crossed a b).Fits
  · simp [hfits]
  · simp [hfits]

theorem toRat_mul_of_representable (ha : a.Normal) (hb : b.Normal)
    (h : Representable (a.toRat * b.toRat)) : (a * b).toRat = a.toRat * b.toRat := by
  obtain ⟨c, hc⟩ := (exists_mul?_iff ha hb).2 h
  rw [mul_of_some hc]
  exact toRat_of_mul? ha hb hc

theorem mul_eq_left (ha : a.Normal) (hb : b.Normal) (h : ¬Representable (a.toRat * b.toRat)) :
    a * b = a := by
  cases hc : mul? a b with
  | none => exact mul_of_none hc
  | some c => exact absurd ((exists_mul?_iff ha hb).1 ⟨c, hc⟩) h

theorem fits_mul (ha : a.Fits) (hna : a.Normal) (hnb : b.Normal) : (a * b).Fits := by
  cases hc : mul? a b with
  | none =>
    rw [mul_of_none hc]
    exact ha
  | some c =>
    rw [mul_of_some hc]
    exact ((mul?_eq_some_iff hna hnb).1 hc).2.1

/-! ## Whole expressions -/

/-- Zero has only one form in lowest terms. -/
theorem eq_zero_of_numerator (ha : a.Normal) (h : a.numerator = 0) : a = zero := by
  obtain ⟨n, d⟩ := a
  have hd : Nat.gcd n d = 1 := ha.2
  cases (h : n = 0)
  rw [Nat.gcd_zero_left] at hd
  rw [hd, zero]

theorem toNat_le_greatestTerm (n : UInt64) : n.toNat ≤ greatestTerm := Nat.le_of_lt_succ n.toNat_lt

/-- Every expression has a value, in lowest terms that fit. -/
theorem exists_value (e : Expression) : ∃ a, e.value? = some a ∧ a.Normal ∧ a.Fits := by
  induction e with
  | fraction n d h =>
    have hd : d.toNat ≠ 0 := fun h0 => h (UInt64.toNat_inj.1 h0)
    exact ⟨reduced n.toNat d.toNat, if_neg hd, normal_reduced (Nat.pos_of_ne_zero hd),
      fits_reduced (toNat_le_greatestTerm n) (toNat_le_greatestTerm d)⟩
  | number n h =>
    have hn : n.toNat ≠ 0 := fun h0 => h (UInt64.toNat_inj.1 h0)
    have hfits := toNat_le_greatestTerm n
    have hvalue : ofNumber? n.toNat = some ⟨1, n.toNat⟩ :=
      if_neg (not_or.2 ⟨hn, Nat.not_lt.2 hfits⟩)
    have hone : 1 ≤ greatestTerm := by decide
    exact ⟨⟨1, n.toNat⟩, hvalue, normal_ofNumber? hvalue, hone, hfits⟩
  | sum e f ihe ihf =>
    obtain ⟨a, hea, hna, hfa⟩ := ihe
    obtain ⟨b, heb, hnb, -⟩ := ihf
    exact ⟨a + b, by simp [Expression.value?, hea, heb], normal_add hna hnb, fits_add hfa⟩
  | product e f ihe ihf =>
    obtain ⟨a, hea, hna, hfa⟩ := ihe
    obtain ⟨b, heb, hnb, -⟩ := ihf
    exact ⟨a * b, by simp [Expression.value?, hea, heb], normal_mul hna hnb, fits_mul hfa hna hnb⟩

/-- Every expression has a value in lowest terms, zero only as 0/1, and values are the same if and
only if their fractions are. A sum is the exact one if no term on the way overflows, and else its
left operand; a product is the exact one if that can be represented, and else its left operand. -/
theorem value_exact_or_left (e f : Expression) :
    ∃ a b, e.value? = some a ∧ f.value? = some b ∧
      (a.Normal ∧ a.Fits ∧ (a.numerator = 0 → a = zero)) ∧
      (a = b ↔ a.toRat = b.toRat) ∧
      ((e.sum f).value? = some (a + b) ∧
        (SumFits a b → (a + b).toRat = a.toRat + b.toRat) ∧
        (¬SumFits a b → a + b = a)) ∧
      ((e.product f).value? = some (a * b) ∧
        (Representable (a.toRat * b.toRat) → (a * b).toRat = a.toRat * b.toRat) ∧
        (¬Representable (a.toRat * b.toRat) → a * b = a)) := by
  obtain ⟨a, hea, ha, hfits⟩ := exists_value e
  obtain ⟨b, hfb, hb, -⟩ := exists_value f
  have hsum : (e.sum f).value? = some (a + b) := by simp [Expression.value?, hea, hfb]
  have hproduct : (e.product f).value? = some (a * b) := by simp [Expression.value?, hea, hfb]
  refine ⟨a, b, hea, hfb, ⟨ha, hfits, eq_zero_of_numerator ha⟩, ⟨congrArg toRat, eq_of_toRat ha hb⟩,
    ⟨hsum, toRat_add_of_sumFits ha hb, add_eq_left⟩,
    ⟨hproduct, toRat_mul_of_representable ha hb, mul_eq_left ha hb⟩⟩

end MusicMacro.NoteLength
