import MusicMacro.Number.Scalar

/-!
# Loudness

Before samples are written they are scaled so that the loudest of them has the greatest amplitude
that can be written, and then rounded to integers of 16 bits.

* `quantise_le` — the result fits into 16 bits.
-/

namespace MusicMacro

/-- The loudest sample: its amplitude, and its index. -/
structure Peak (σ : Type) where
  amplitude : σ
  index : Nat
deriving DecidableEq, Repr

variable {σ : Type} [Scalar σ]

namespace Peak

/-- The peak of what has been heard before the first sample. -/
def silence : Peak σ := ⟨0, 0⟩

/-- The louder of the peak so far and the sample with an index; the peak, if they are equal. -/
def hear (p : Peak σ) (index : Nat) (x : σ) : Peak σ :=
  if p.amplitude < Scalar.magnitude x then ⟨Scalar.magnitude x, index⟩ else p

/-- The peak of some samples. -/
def ofSamples (samples : Array σ) : Peak σ :=
  (samples.foldl (fun (p, i) x => (p.hear i x, i + 1)) (silence, 0)).1

/-- The factor that makes the peak as loud as can be. Silence stays silent. -/
def gain (p : Peak σ) : σ := if 0 < p.amplitude then 1 / p.amplitude else 0

end Peak

/-- The greatest integer of 16 bits. -/
def greatestLevel : Nat := 32767

/-- The integer of a sample: with a gain, 1 becomes the greatest one. A half is rounded away from
zero, and what lies beyond the integers of 16 bits becomes the first or the last of them. -/
def quantise (gain x : σ) : Int :=
  let y := x * gain * (greatestLevel : σ)
  if y < 0 then -(min (greatestLevel + 1) (Scalar.nearest (-y)) : Nat)
  else (min greatestLevel (Scalar.nearest y) : Nat)

theorem quantise_le (gain x : σ) : -32768 ≤ quantise gain x ∧ quantise gain x ≤ 32767 := by
  simp only [quantise, greatestLevel]
  omega

end MusicMacro
