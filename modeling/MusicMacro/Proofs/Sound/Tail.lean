import Mathlib.Algebra.Order.Round
import MusicMacro.Sound.Tone
import MusicMacro.Proofs.Exact
import MusicMacro.Proofs.Extent
import MusicMacro.Proofs.Sound.Contour

/-!
# The tail of a tone

A tone has the samples for which it is held and then those of its release. The release starts at the
level that the envelope has reached, which need not be the sustain level, and its last sample is the
one before the envelope is silent.

* `Sounding.contour_hold` — while a tone is held its envelope goes on sample by sample.
* `Sounding.size_fade` — a release has one sample less than it takes to be silent.
* `Tone.size_samples_eq` — the samples of a tone. The bound of the release never comes before its
  end.
-/

namespace MusicMacro

open Contour (later rampSamples)

/-! ## Counts -/

theorem Scalar.ceiling_eq_ceil (a : Rat) : Scalar.ceiling a = ⌈a⌉₊ := by
  rw [← Int.ceil_toNat]
  show a.ceil.toNat = (-(-a).floor).toNat
  rw [Rat.ceil_eq_neg_floor_neg]

theorem Scalar.nearest_eq_round (a : Rat) : Scalar.nearest a = (round a).toNat := by
  rw [round_eq]
  rfl

/-! ## Samples -/

namespace Sounding

variable [Circular Rat]

theorem contour_hold (k : Setting Rat) (n : Nat) (s : Sounding Rat) (samples : Array Rat) :
    (hold k n s samples).1.contour = later k.envelope k.rate s.contour n := by
  induction n generalizing s samples with
  | zero => rfl
  | succ n ih => rw [hold, ih, Nat.add_comm, Contour.later_add]; rfl

/-- A release whose envelope is silent after some samples, and for which there is time enough, has
all these samples but the last. -/
theorem size_fade (k : Setting Rat) {n bound : Nat} (hbound : n < bound) (s : Sounding Rat)
    (samples : Array Rat)
    (hend : ∀ j, (later k.envelope k.rate s.contour j).isIdle = true ↔ n < j) :
    (fade k bound s samples).size = samples.size + n := by
  induction bound generalizing n s samples with
  | zero => exact absurd hbound (Nat.not_lt_zero n)
  | succ bound ih =>
    rw [fade]
    cases n with
    | zero =>
      have hidle : (s.contour.next k.envelope k.rate).isIdle = true := (hend 1).2 Nat.one_pos
      rw [if_pos hidle, Nat.add_zero]
    | succ n =>
      have hsounds : ¬ (s.contour.next k.envelope k.rate).isIdle = true := fun h =>
        absurd ((hend 1).1 h) (by omega)
      rw [if_neg hsounds, ih (Nat.lt_of_succ_lt_succ hbound), Array.size_push]
      · omega
      · intro j
        have h := hend (1 + j)
        rw [Contour.later_add, Nat.add_comm 1, Nat.succ_lt_succ_iff] at h
        exact h

end Sounding

/-! ## Tones -/

theorem Tone.releaseBound_eq (t : Tone Rat Rat) (rate : Nat) :
    t.releaseBound rate = ⌈t.envelope.release * rate⌉₊ + 1 := by
  have hrate : (0 : Rat) ≤ rate := rate.cast_nonneg
  rw [releaseBound, Scalar.ceiling_eq_ceil, Scalar.larger_eq_max]
  rcases le_total t.envelope.release 0 with h | h
  · rw [max_eq_right h, Nat.ceil_eq_zero.2 (mul_nonpos_of_nonpos_of_nonneg h hrate),
      Nat.ceil_eq_zero.2 (zero_mul (rate : Rat)).le]
  · rw [max_eq_left h]

theorem Tone.heldSamples_eq (t : Tone Rat Rat) (rate : Nat) :
    t.heldSamples rate = (round (t.duration * rate)).toNat := Scalar.nearest_eq_round _

/-- The samples of a tone whose envelope, when the tone is no longer held, is silent after some
samples. -/
theorem Tone.size_samples_of_ends [Circular Rat] (t : Tone Rat Rat) {rate n : Nat}
    (hheld : t.heldSamples rate ≠ 0) (hbound : n < t.releaseBound rate)
    (hend : ∀ j, (later t.envelope rate
      (later t.envelope rate Contour.start.noteOn (t.heldSamples rate)).noteOff j).isIdle = true ↔
        n < j) :
    (t.samples rate).size = t.heldSamples rate + n := by
  unfold samples
  dsimp only
  rw [if_neg hheld, Sounding.size_fade (t.setting rate) hbound, Sounding.size_hold]
  · rw [Array.size_empty, Nat.zero_add]
  · intro j
    rw [Sounding.contour_hold]
    exact hend j

/-- A tone is held for its duration, to the nearest sample. If that is none, it is silent. Otherwise
its release has one sample less than the envelope takes to fall from the level of the last sample
that is held. The bound of the release leaves time for it: when the bound is reached, the envelope
is silent. -/
theorem Tone.size_samples_eq [Circular Rat] (t : Tone Rat Rat) (h0 : 0 ≤ t.envelope.sustain)
    (h1 : t.envelope.sustain ≤ 1) {rate : Nat} (hr : 0 < rate) :
    let held := (round (t.duration * rate)).toNat
    let c := later t.envelope rate Contour.start.noteOn held
    let tail := rampSamples rate t.envelope.release c.level - 1
    let last := later t.envelope rate c.noteOff (t.releaseBound rate)
    (t.samples rate).size = (if held = 0 then 0 else held + tail) ∧
      tail ≤ ⌈t.envelope.release * rate⌉₊ ∧
      t.releaseBound rate = ⌈t.envelope.release * rate⌉₊ + 1 ∧
      last.isIdle = true ∧ last.level = 0 := by
  intro held c tail last
  have he : Contour.Sustainable t.envelope := ⟨h0, h1⟩
  have hrate : (0 : Rat) < rate := Nat.cast_pos.2 hr
  have hrange : Contour.InRange t.envelope c := (Contour.InRange.noteOn _).later he hrate held
  have hreleased := Contour.released_noteOff he hrate hrange
    (Contour.isIdle_noteOn he hrate _ held)
  have hsilent : rampSamples rate t.envelope.release c.level = tail + 1 :=
    (Nat.sub_add_cancel (Contour.rampSamples_pos _ _ _)).symm
  have htail : tail ≤ ⌈t.envelope.release * rate⌉₊ := by
    have hwhole := Contour.rampSamples_le_whole hrate t.envelope.release hrange.nonneg hrange.le_one
    rw [hsilent, rampSamples, one_mul] at hwhole
    omega
  have hbound : tail < t.releaseBound rate := by
    rw [t.releaseBound_eq]
    exact Nat.lt_succ_of_le htail
  have hlast : rampSamples rate t.envelope.release c.level ≤ t.releaseBound rate :=
    hsilent.trans_le hbound
  refine ⟨?_, htail, t.releaseBound_eq rate, (hreleased.ends _).2 hlast, hreleased.silent _ hlast⟩
  have hheld : t.heldSamples rate = held := t.heldSamples_eq rate
  split
  · next h => exact (t.size_samples rate).1 (hheld.trans h)
  · next h =>
    rw [← hheld] at h ⊢
    refine t.size_samples_of_ends h hbound fun j => ?_
    rw [hheld]
    exact (hreleased.ends j).trans (by rw [hsilent]; exact Nat.succ_le_iff)

section

open scoped Octaves

/-- A tone that ends in the attack, after two samples and at two thirds. It takes three samples to
be silent. -/
theorem Tone.size_samples_eq_interrupted :
    let t : Tone Rat Rat :=
      ⟨1 / 5, 1 / 10, 1, .oscillator .square, ⟨3 / 10, 1 / 2, 1 / 4, 2 / 5⟩⟩
    (t.samples 10).size = 4 := by
  intro t
  have h := t.size_samples_eq (by decide +kernel) (by decide +kernel) (show 0 < 10 by decide)
  refine h.1.trans ?_
  decide +kernel

end

end MusicMacro
