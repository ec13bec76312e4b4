import Mathlib.Algebra.Order.Field.Basic
import Mathlib.Tactic.NormNum
import Mathlib.Tactic.Ring
import MusicMacro.Proofs.Exact
import MusicMacro.WaveFile

/-!
# Levels

With rational numbers for samples, a sample that is written becomes the nearest level, an integer
from -32767 to 32767, and the level is read as the sample that has it exactly. So what is read is
written as the same level again.

* `quantise_mono` — a greater sample has no smaller level.
* `abs_quantise_sub_le`, `quantise_of_level` — the level is the nearest one.
* `scaled_eq` — the sample that has a level.
* `loudest`, `gain_eq` — the gain is that of the loudest sample.
-/

namespace MusicMacro

open Scalar (nearest nearest_mono nearest_le abs_nearest_sub_le)

/-! ## Quantising -/

theorem quantise_of_neg {gain x : Rat} (h : x * gain * 32767 < 0) :
    quantise gain x = -((min 32768 (nearest (-(x * gain * 32767))) : Nat) : Int) := if_pos h

theorem quantise_of_nonneg {gain x : Rat} (h : 0 ≤ x * gain * 32767) :
    quantise gain x = ((min 32767 (nearest (x * gain * 32767)) : Nat) : Int) := if_neg (not_lt.2 h)

/-- A greater sample has no smaller level. -/
theorem quantise_mono {gain : Rat} (hg : 0 ≤ gain) {x y : Rat} (h : x ≤ y) :
    quantise gain x ≤ quantise gain y := by
  have hle : x * gain * 32767 ≤ y * gain * 32767 := by
    have hmul : x * gain ≤ y * gain := mul_le_mul_of_nonneg_right h hg
    linarith
  rcases lt_or_ge (x * gain * 32767) 0 with hx | hx
  · rw [quantise_of_neg hx]
    rcases lt_or_ge (y * gain * 32767) 0 with hy | hy
    · rw [quantise_of_neg hy]
      have hmono := nearest_mono (neg_le_neg hle)
      omega
    · rw [quantise_of_nonneg hy]
      omega
  · have hy : 0 ≤ y * gain * 32767 := hx.trans hle
    rw [quantise_of_nonneg hx, quantise_of_nonneg hy]
    have hmono := nearest_mono hle
    omega

/-- A sample that is not louder than the loudest one is rounded to a level. -/
theorem abs_quantise_sub_le {gain x : Rat} (h : |x * gain| ≤ 1) :
    |quantise gain x| ≤ 32767 ∧ |(quantise gain x : Rat) - x * gain * 32767| ≤ 1 / 2 := by
  obtain ⟨hlow, hhigh⟩ := abs_le.1 h
  rcases lt_or_ge (x * gain * 32767) 0 with hx | hx
  · have hn : nearest (-(x * gain * 32767)) ≤ 32767 := nearest_le (by push_cast; linarith)
    have hq : quantise gain x = -(nearest (-(x * gain * 32767)) : Int) := by
      rw [quantise_of_neg hx, min_eq_right (by omega)]
    have hclose := abs_nearest_sub_le (neg_nonneg.2 hx.le)
    rw [hq]
    refine ⟨by rw [abs_le]; omega, ?_⟩
    rw [← abs_neg]
    push_cast
    convert hclose using 2
    ring
  · have hn : nearest (x * gain * 32767) ≤ 32767 := nearest_le (by push_cast; linarith)
    have hq : quantise gain x = (nearest (x * gain * 32767) : Int) := by
      rw [quantise_of_nonneg hx, min_eq_right hn]
    rw [hq]
    refine ⟨by rw [abs_le]; omega, ?_⟩
    exact_mod_cast abs_nearest_sub_le hx

theorem abs_level_div_le {level : Int} (h : |level| ≤ 32767) : |(level : Rat) / 32767| ≤ 1 := by
  have hcast : |(level : Rat)| ≤ 32767 := by exact_mod_cast h
  rw [abs_div, abs_of_pos (show (0 : Rat) < 32767 by norm_num), div_le_one (by norm_num)]
  exact hcast

/-- A sample that has a level exactly is written as this level. -/
theorem quantise_of_level {gain x : Rat} {level : Int} (hl : |level| ≤ 32767)
    (h : x * gain * 32767 = level) : quantise gain x = level := by
  have hexact : x * gain = level / 32767 := eq_div_of_mul_eq (by norm_num) h
  have hle : |x * gain| ≤ 1 := by
    rw [hexact]
    exact abs_level_div_le hl
  have hclose := (abs_quantise_sub_le hle).2
  rw [h] at hclose
  have hlt : |((quantise gain x - level : Int) : Rat)| < 1 := by
    push_cast
    linarith
  have hzero : |quantise gain x - level| < 1 := by exact_mod_cast hlt
  exact sub_eq_zero.1 (Int.abs_lt_one_iff.1 hzero)

/-! ## Levels that are read -/

theorem Coding.clip_eq {x : Rat} (h : |x| ≤ 1) : Coding.clip x = x := by
  obtain ⟨hlow, hhigh⟩ := abs_le.1 h
  unfold Coding.clip
  rw [Scalar.larger_eq_max, Scalar.smaller_eq_min]
  exact (congrArg (min · 1) (max_eq_left hlow)).trans (min_eq_left hhigh)

theorem Coding.ofInteger_eq (n : Int) : (Coding.ofInteger n : Rat) = n := by
  unfold Coding.ofInteger
  by_cases h : n < 0
  · rw [if_pos h]
    show -((n.natAbs : Nat) : Rat) = n
    rw [Nat.cast_natAbs, abs_of_neg h]
    push_cast
    ring
  · rw [if_neg h]
    show ((n.natAbs : Nat) : Rat) = n
    rw [Nat.cast_natAbs, abs_of_nonneg (not_lt.1 h)]

/-- What is read has its level exactly. -/
theorem Coding.scaled_eq {level : Int} (h : |level| ≤ 32767) :
    (Coding.scaled level 32767 : Rat) = level / 32767 := by
  unfold Coding.scaled
  rw [Coding.ofInteger_eq]
  exact Coding.clip_eq (abs_level_div_le h)

/-! ## The loudest sample -/

/-- The largest absolute sample; zero, if there are no samples. -/
def loudest (samples : Array Rat) : Rat := samples.foldl (fun loudest x => max loudest |x|) 0

theorem loudest_cases (samples : Array Rat) :
    (∀ x ∈ samples, |x| ≤ loudest samples) ∧ 0 ≤ loudest samples ∧
      (loudest samples = 0 ∨ ∃ x ∈ samples, |x| = loudest samples) := by
  have h (xs : List Rat) (least : Rat) :
      let most := xs.foldl (fun loudest x => max loudest |x|) least
      (∀ x ∈ xs, |x| ≤ most) ∧ least ≤ most ∧ (most = least ∨ ∃ x ∈ xs, |x| = most) := by
    induction xs generalizing least with
    | nil => exact ⟨nofun, le_rfl, .inl rfl⟩
    | cons x xs ih =>
      obtain ⟨hall, hle, hmost⟩ := ih (max least |x|)
      refine ⟨List.forall_mem_cons.2 ⟨(le_max_right _ _).trans hle, hall⟩,
        (le_max_left _ _).trans hle, ?_⟩
      rcases hmost with hmost | ⟨y, hy, hmost⟩
      · rcases max_choice least |x| with hmax | hmax
        · exact .inl (hmost.trans hmax)
        · exact .inr ⟨x, List.mem_cons_self, (hmost.trans hmax).symm⟩
      · exact .inr ⟨y, List.mem_cons_of_mem x hy, hmost⟩
  obtain ⟨hall, hle, hmost⟩ := h samples.toList 0
  unfold loudest
  rw [← Array.foldl_toList]
  simpa only [Array.mem_def] using ⟨hall, hle, hmost⟩

theorem amplitude_eq (samples : Array Rat) :
    (Peak.ofSamples samples).amplitude = loudest samples := by
  have h (xs : List Rat) (p : Peak Rat) (i : Nat) :
      (xs.foldl (fun (p, i) x => (p.hear i x, i + 1)) (p, i)).1.amplitude =
        xs.foldl (fun loudest x => max loudest |x|) p.amplitude := by
    induction xs generalizing p i with
    | nil => rfl
    | cons x xs ih =>
      have hear : (p.hear i x).amplitude = max p.amplitude |x| := by
        unfold Peak.hear
        rw [Scalar.magnitude_eq_abs]
        by_cases hlt : p.amplitude < |x|
        · rw [if_pos hlt, max_eq_right hlt.le]
        · rw [if_neg hlt, max_eq_left (not_lt.1 hlt)]
      rw [List.foldl_cons, List.foldl_cons, ih, hear]
  unfold Peak.ofSamples loudest
  rw [← Array.foldl_toList, ← Array.foldl_toList]
  exact h samples.toList Peak.silence 0

/-- The gain makes the loudest sample 1. -/
theorem gain_eq (samples : Array Rat) :
    (Peak.ofSamples samples).gain = (loudest samples)⁻¹ := by
  obtain ⟨-, hnonneg, -⟩ := loudest_cases samples
  unfold Peak.gain
  rw [amplitude_eq]
  by_cases h : 0 < loudest samples
  · rw [if_pos h]
    exact one_div _
  · have hzero : loudest samples = 0 := le_antisymm (not_lt.1 h) hnonneg
    rw [if_neg h, hzero, inv_zero]

end MusicMacro
