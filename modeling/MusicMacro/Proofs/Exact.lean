import Mathlib.Algebra.Order.Ring.Rat
import Mathlib.Tactic.Linarith
import MusicMacro.Clock
import MusicMacro.Timeline

/-!
# Exact time

With rational numbers for seconds the scalar operations are those of an ordered field.

* `larger_eq_max`, `smaller_eq_min` — the choices between two numbers.
* `nearest_mono`, `nearest_le`, `abs_nearest_sub_le` — rounding to a count.
* `duration_sequence`, `duration_parallel` — one after the other, durations add up; together, the
  longest one counts.
* `duration_parallel_nonneg` — music that sounds together has no negative duration.
* `Entry.finish_cut` — a cut takes an entry to the cut at most, and changes nothing before it.

Pitches have no exact frequencies in general, so statements about exact time hold for every tuning.
`Octaves` is the one to open for an instance in which all intervals are octaves, and for a circle
that is good enough for square waves.
-/

namespace MusicMacro

/-! ## Scalars -/

theorem Scalar.larger_eq_max (a b : Rat) : Scalar.larger a b = max a b := by
  unfold Scalar.larger
  by_cases h : b < a
  · rw [if_pos h, max_eq_left h.le]
  · rw [if_neg h, if_pos (show b ≤ b from le_rfl), max_eq_right (not_lt.1 h)]

theorem Scalar.smaller_eq_min (a b : Rat) : Scalar.smaller a b = min a b := by
  unfold Scalar.smaller
  by_cases h : a < b
  · rw [if_pos h, min_eq_left h.le]
  · rw [if_neg h, if_pos (show b ≤ b from le_rfl), min_eq_right (not_lt.1 h)]

theorem Scalar.magnitude_eq_abs (a : Rat) : Scalar.magnitude a = |a| := by
  unfold Scalar.magnitude
  by_cases h : a < 0
  · rw [if_pos h, abs_of_neg h]
  · rw [if_neg h, abs_of_nonneg (not_lt.1 h)]

theorem Scalar.nearest_mono {a b : Rat} (h : a ≤ b) : Scalar.nearest a ≤ Scalar.nearest b := by
  show (a + 1 / 2).floor.toNat ≤ (b + 1 / 2).floor.toNat
  apply Int.toNat_le_toNat
  apply Rat.floor_monotone
  linarith

/-- What is not greater than a count is not rounded to a greater one. -/
theorem Scalar.nearest_le {a : Rat} {n : Nat} (h : a ≤ n) : Scalar.nearest a ≤ n := by
  have hle : ((a + 1 / 2).floor : Rat) ≤ a + 1 / 2 := Rat.floor_le _
  have hlt : ((a + 1 / 2).floor : Rat) < ((n : Int) + 1 : Int) := by
    push_cast
    linarith
  have hfloor : (a + 1 / 2).floor ≤ n := Int.le_of_lt_add_one (by exact_mod_cast hlt)
  exact Int.toNat_le.2 hfloor

/-- What is not negative is rounded to a count that is half of one away at most. -/
theorem Scalar.abs_nearest_sub_le {a : Rat} (h : 0 ≤ a) :
    |(Scalar.nearest a : Rat) - a| ≤ 1 / 2 := by
  have hle : ((a + 1 / 2).floor : Rat) ≤ a + 1 / 2 := Rat.floor_le _
  have hlt : a + 1 / 2 < ((a + 1 / 2).floor + 1 : Int) := Rat.lt_floor_add_one _
  push_cast at hlt
  have hnonneg : 0 ≤ (a + 1 / 2).floor := by
    rw [Rat.le_floor_iff]
    push_cast
    linarith
  have hcast : (Scalar.nearest a : Rat) = ((a + 1 / 2).floor : Rat) := by
    show (((a + 1 / 2).floor.toNat : Nat) : Rat) = _
    exact_mod_cast Int.toNat_of_nonneg hnonneg
  rw [hcast, abs_le]
  constructor <;> linarith

/-- The frequency ratio of a whole number of octaves, which is what an interval is rounded down
to. -/
scoped instance Octaves.tuning : Tuned Rat where
  ratio n := 2 ^ (n / 12)

/-- A circle for waves that have corners only: they take nothing of it but a length. -/
scoped instance Octaves.circle : Circular Rat where
  pi := 22 / 7
  sine _ := 0

/-! ## Clocks -/

theorem Clock.now_catchUp (c : Clock Rat) (time : Rat) : (c.catchUp time).now = max c.now time := by
  unfold Clock.catchUp
  by_cases h : c.now < time
  · rw [if_pos h, max_eq_right h.le]
    rfl
  · rw [if_neg h, max_eq_left (not_lt.1 h)]

/-! ## Durations -/

variable {σ : Type}

theorem Phrase.le_longest (known : Rat) (ps : List (Phrase Rat σ)) :
    known ≤ Phrase.longest known ps := by
  induction ps generalizing known with
  | nil => rw [Phrase.longest]
  | cons p ps ih =>
    rw [Phrase.longest, Scalar.larger_eq_max]
    exact le_trans (le_max_left _ _) (ih _)

theorem Phrase.duration_parallel_nonneg (ps : List (Phrase Rat σ)) :
    0 ≤ (Phrase.parallel ps).duration := by
  rw [Phrase.duration]
  exact Phrase.le_longest 0 ps

theorem Phrase.total_eq (passed : Rat) (ps : List (Phrase Rat σ)) :
    Phrase.total passed ps = passed + (ps.map Phrase.duration).sum := by
  induction ps generalizing passed with
  | nil => rw [Phrase.total, List.map_nil, List.sum_nil, add_zero]
  | cons p ps ih => rw [Phrase.total, ih, List.map_cons, List.sum_cons, add_assoc]

theorem Phrase.duration_sequence (ps : List (Phrase Rat σ)) :
    (Phrase.sequence ps).duration = (ps.map Phrase.duration).sum := by
  rw [Phrase.duration, Phrase.total_eq]
  exact (congrArg (· + _) neg_zero).trans (zero_add _)

theorem Phrase.longest_eq (known : Rat) (ps : List (Phrase Rat σ)) :
    Phrase.longest known ps = (ps.map Phrase.duration).foldl max known := by
  induction ps generalizing known with
  | nil => rw [Phrase.longest]; rfl
  | cons p ps ih => rw [Phrase.longest, ih, Scalar.larger_eq_max]; rfl

theorem Phrase.duration_parallel (ps : List (Phrase Rat σ)) :
    (Phrase.parallel ps).duration = (ps.map Phrase.duration).foldl max 0 := by
  rw [Phrase.duration]
  exact Phrase.longest_eq 0 ps

/-! ## Entries -/

theorem Entry.finish_of_none {e : Entry Rat σ} (h : e.stoppedAt = none) :
    e.finish = e.start + e.duration := by
  rw [Entry.finish, h]
  rfl

theorem Entry.finish_of_some {e : Entry Rat σ} {time : Rat} (h : e.stoppedAt = some time) :
    e.finish = min (e.start + e.duration) time := by
  rw [Entry.finish, h]
  exact Scalar.smaller_eq_min _ _

theorem Entry.finish_cut (e : Entry Rat σ) (time : Rat) :
    (e.cut time).finish = min e.finish time := by
  cases h : e.stoppedAt with
  | none =>
    have hc : (e.cut time).stoppedAt = some time := by rw [Entry.cut, h]; rfl
    rw [Entry.finish_of_none h, Entry.finish_of_some hc]
    rfl
  | some stopped =>
    have hc : (e.cut time).stoppedAt = some (min stopped time) := by
      rw [Entry.cut, h, ← Scalar.smaller_eq_min]
      rfl
    rw [Entry.finish_of_some h, Entry.finish_of_some hc, min_assoc]
    rfl

end MusicMacro
