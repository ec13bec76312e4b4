import Mathlib.Algebra.Order.Floor.Ring
import Mathlib.Algebra.Order.Ring.Rat
import Mathlib.Data.Rat.Floor
import MusicMacro.Number.Scalar

/-!
# Scalars in order

What can be said about times without exact arithmetic. Comparisons put all scalars in order that are
numbers, which leaves out only the one of floating point that is not. Numbers that differ may stand
at the same place, as the two zeros do, so that no equality follows from the order.

Exact numbers have all these laws, and so has floating point of 64 bits, though it rounds what it
adds and multiplies.

* `Scalar.Ordered` — numbers are in order, and finite numbers add up to a number.
* `Scalar.Cumulative`, `Scalar.Sampled` — sums, and the samples to which times belong, go with the
  order.
* `Scalar.Standing` — at a rate of zero there is one sample for all times.
* `Scalar.Extended` — infinite times, and sums up to them.
* `Scalar.Begun` — times from a finite one on, which are not made earlier by adding to them.
* `Earliest` — the first of some times. `Earliest.concat` adds one more.
-/

namespace MusicMacro

namespace Scalar

/-! ## Laws -/

/-- Comparisons put the numbers in order, and finite numbers add up to a number. -/
class Ordered (α : Type) [Scalar α] : Prop where
  trans {a b c : α} : a ≤ b → b ≤ c → a ≤ c
  total {a b : α} : isNumber a → isNumber b → a ≤ b ∨ b ≤ a
  lt_iff {a b : α} : a < b ↔ a ≤ b ∧ ¬b ≤ a
  /-- Nothing else compares. -/
  isNumber_of_le {a b : α} : a ≤ b → isNumber a ∧ isNumber b
  isNumber_of_isFinite {a : α} : isFinite a → isNumber a
  isNumber_add {a b : α} : isFinite a → isFinite b → isNumber (a + b)

/-- What is not negative makes no time earlier to which it is added. -/
class Cumulative (α : Type) [Scalar α] : Prop where
  le_add {a b : α} : isFinite a → isFinite b → 0 ≤ b → a ≤ a + b

/-- A time that is no earlier belongs to a sample that is no earlier. -/
class Sampled (α : Type) [Scalar α] : Prop where
  sampleIndex_le {a b : α} (rate : Nat) : a ≤ b → sampleIndex a rate ≤ sampleIndex b rate

/-- At a rate of zero time stands still: all of it belongs to the first sample. -/
class Standing (α : Type) [Scalar α] : Prop where
  sampleIndex_zero (a : α) : sampleIndex a 0 = 0

/-- What is infinite and not below zero is the greatest of all numbers. Up to there sums go with the
order, from every finite time on. -/
class Extended (α : Type) [Scalar α] : Prop where
  isFinite_zero : isFinite (0 : α)
  zero_le_neg_zero : (0 : α) ≤ -0
  le_add_of_le {a b c : α} : isFinite a → a ≤ b → 0 ≤ c → b ≤ b + c
  le_infinite {a b : α} : isNumber a → isFinite b = false → 0 ≤ b → a ≤ b
  not_infinite_le {a b : α} : isFinite a → isFinite b = false → 0 ≤ b → ¬b ≤ a

instance : Ordered Rat where
  trans := le_trans
  total _ _ := le_total _ _
  lt_iff := lt_iff_le_not_ge
  isNumber_of_le _ := ⟨decide_eq_true le_rfl, decide_eq_true le_rfl⟩
  isNumber_of_isFinite _ := decide_eq_true le_rfl
  isNumber_add _ _ := decide_eq_true le_rfl

instance : Cumulative Rat where
  le_add _ _ := le_add_of_nonneg_right

instance : Extended Rat where
  isFinite_zero := rfl
  zero_le_neg_zero := neg_zero.ge
  le_add_of_le _ _ := le_add_of_nonneg_right
  le_infinite _ h := nomatch h
  not_infinite_le _ h := nomatch h

instance : Sampled Rat where
  sampleIndex_le rate h := by
    have hscaled := mul_le_mul_of_nonneg_right h (Nat.cast_nonneg (α := Rat) rate)
    exact Int.toNat_le_toNat (Rat.floor_monotone (add_le_add_left hscaled (1 / 2)))

instance : Standing Rat where
  sampleIndex_zero a := by
    rw [sampleIndex, Nat.cast_zero, mul_zero]
    decide +kernel

/-! ## Comparisons -/

variable {α : Type} [Scalar α] {a b c : α}

theorem le_self (h : isNumber a) : a ≤ a := of_decide_eq_true h

theorem smaller_eq_ite (hb : isNumber b) : smaller a b = if a < b then a else b := by
  rw [smaller, if_pos (le_self hb)]

theorem smaller_eq_or (hb : isNumber b) : smaller a b = a ∨ smaller a b = b := by
  rw [smaller_eq_ite hb]
  exact ite_eq_or_eq _ _ _

variable [Ordered α]

theorem le_of_lt (h : a < b) : a ≤ b := (Ordered.lt_iff.1 h).1

theorem not_le_of_lt (h : a < b) : ¬b ≤ a := (Ordered.lt_iff.1 h).2

theorem lt_of_not_le (ha : isNumber a) (hb : isNumber b) (h : ¬b ≤ a) : a < b :=
  Ordered.lt_iff.2 ⟨(Ordered.total ha hb).resolve_right h, h⟩

theorem le_of_not_lt (ha : isNumber a) (hb : isNumber b) (h : ¬a < b) : b ≤ a := by
  by_contra hle
  exact h (lt_of_not_le ha hb hle)

theorem lt_of_le_of_lt (hab : a ≤ b) (hbc : b < c) : a < c :=
  Ordered.lt_iff.2 ⟨Ordered.trans hab (le_of_lt hbc),
    fun hca => not_le_of_lt hbc (Ordered.trans hca hab)⟩

theorem smaller_le (ha : isNumber a) (hb : isNumber b) : smaller a b ≤ a ∧ smaller a b ≤ b := by
  rw [smaller_eq_ite hb]
  by_cases h : a < b
  · rw [if_pos h]
    exact ⟨le_self ha, le_of_lt h⟩
  · rw [if_neg h]
    exact ⟨le_of_not_lt ha hb h, le_self hb⟩

/-! ## Times from a finite one on -/

/-- The time is no earlier than some finite one. -/
def Begun (a : α) : Prop := ∃ b, isFinite b ∧ b ≤ a

theorem begun_of_isFinite (h : isFinite a) : Begun a :=
  ⟨a, h, le_self (Ordered.isNumber_of_isFinite h)⟩

theorem Begun.of_le (ha : Begun a) (h : a ≤ b) : Begun b := by
  obtain ⟨c, hc, hle⟩ := ha
  exact ⟨c, hc, Ordered.trans hle h⟩

theorem Begun.isNumber (h : Begun a) : isNumber a := by
  obtain ⟨b, -, hle⟩ := h
  exact (Ordered.isNumber_of_le hle).2

variable [Extended α]

omit [Ordered α] in
theorem Begun.le_add (ha : Begun a) (hb : 0 ≤ b) : a ≤ a + b := by
  obtain ⟨c, hc, hle⟩ := ha
  exact Extended.le_add_of_le hc hle hb

theorem zero_le_zero : (0 : α) ≤ 0 :=
  le_self (Ordered.isNumber_of_isFinite Extended.isFinite_zero)

theorem add_nonneg (ha : 0 ≤ a) (hb : 0 ≤ b) : 0 ≤ a + b :=
  Ordered.trans ha (Extended.le_add_of_le Extended.isFinite_zero ha hb)

end Scalar

/-! ## The earliest time -/

open Scalar

variable {α : Type} [Scalar α]

/-- A time is one of several, and none of them is earlier. -/
def Earliest (a : α) (times : List α) : Prop := a ∈ times ∧ ∀ b ∈ times, a ≤ b

variable [Ordered α] {a b : α} {times : List α}

theorem Earliest.isNumber (h : Earliest a times) : isNumber a :=
  (Ordered.isNumber_of_le (h.2 a h.1)).1

omit [Ordered α] in
theorem earliest_singleton (ha : Scalar.isNumber a) : Earliest a [a] := by
  refine ⟨List.mem_cons_self, fun b hb => ?_⟩
  rw [List.mem_singleton.1 hb]
  exact le_self ha

/-- The earliest of some times and of one more. -/
theorem Earliest.concat (h : Earliest a times) (hb : Scalar.isNumber b) :
    Earliest (smaller a b) (times ++ [b]) := by
  obtain ⟨hleft, hright⟩ := smaller_le h.isNumber hb
  refine ⟨?_, fun c hc => ?_⟩
  · rcases smaller_eq_or (a := a) hb with heq | heq <;> rw [heq]
    · exact List.mem_append_left _ h.1
    · exact List.mem_append_right _ List.mem_cons_self
  · rcases List.mem_append.1 hc with hc | hc
    · exact Ordered.trans hleft (h.2 c hc)
    · rw [List.mem_singleton.1 hc]
      exact hright

/-- The earliest of one time and of some more. -/
theorem Earliest.cons (h : Earliest b times) (ha : Scalar.isNumber a) :
    Earliest (smaller a b) (a :: times) := by
  obtain ⟨hleft, hright⟩ := smaller_le ha h.isNumber
  refine ⟨?_, fun c hc => ?_⟩
  · rcases smaller_eq_or (a := a) h.isNumber with heq | heq <;> rw [heq]
    · exact List.mem_cons_self
    · exact List.mem_cons_of_mem _ h.1
  · rcases List.mem_cons.1 hc with rfl | hc
    · exact hleft
    · exact Ordered.trans hright (h.2 c hc)

end MusicMacro
