import MusicMacro.Sound.Instrument

/-!
# Tones

A tone holds a frequency for a duration. Its samples are those of its instrument, shaped by its
envelope and scaled by its amplitude. The release follows after the duration.

* `Tone.samples` — the samples of the held part and then of the release.
-/

namespace MusicMacro

/-- A tone. Times and frequencies have type `τ`, samples and levels type `σ`. -/
structure Tone (τ σ : Type) where
  duration : τ
  frequency : τ
  amplitude : τ
  instrument : Instrument σ
  envelope : Envelope σ
deriving Repr

/-- A tone that sounds: its instrument and its envelope have come this far. -/
structure Sounding (σ : Type) where
  source : Source σ
  contour : Contour σ

/-- What stays the same while a tone sounds. -/
structure Sounding.Setting (σ : Type) where
  frequency : σ
  rate : σ
  amplitude : σ
  envelope : Envelope σ

namespace Sounding

variable {σ : Type} [Scalar σ] [Circular σ]

/-- The next sample. -/
def next (k : Setting σ) (s : Sounding σ) : σ × Sounding σ :=
  let (x, source) := s.source.next k.frequency k.rate
  let contour := s.contour.next k.envelope k.rate
  (x * contour.level * k.amplitude, ⟨source, contour⟩)

/-- Appends samples while the tone is held. -/
def hold (k : Setting σ) : Nat → Sounding σ → Array σ → Sounding σ × Array σ
  | 0, s, samples => (s, samples)
  | n + 1, s, samples =>
    let (x, s) := s.next k
    hold k n s (samples.push x)

/-- Appends samples of the release, until the envelope is idle and not beyond a number of them. -/
def fade (k : Setting σ) : Nat → Sounding σ → Array σ → Array σ
  | 0, _, samples => samples
  | n + 1, s, samples =>
    if (s.contour.next k.envelope k.rate).isIdle then samples
    else
      let (x, s) := s.next k
      fade k n s (samples.push x)

end Sounding

namespace Tone

variable {τ σ : Type} [Scalar τ] [Scalar σ] [Circular σ] [Narrow τ σ]

omit [Scalar σ] [Circular σ] [Narrow τ σ] in
/-- The number of samples for which the tone is held. -/
def heldSamples (t : Tone τ σ) (rate : Nat) : Nat := Scalar.sampleIndex t.duration rate

omit [Circular σ] in
/-- What stays the same while the tone sounds. -/
def setting (t : Tone τ σ) (rate : Nat) : Sounding.Setting σ where
  frequency := Narrow.narrow t.frequency
  rate := (rate : σ)
  amplitude := Narrow.narrow t.amplitude
  envelope := t.envelope

omit [Circular σ] [Narrow τ σ] [Scalar τ] in
/-- The tone when it starts. -/
def start (t : Tone τ σ) : Sounding σ := ⟨t.instrument.start, Contour.start.noteOn⟩

omit [Circular σ] [Narrow τ σ] [Scalar τ] in
/-- No release takes more samples than this. -/
def releaseBound (t : Tone τ σ) (rate : Nat) : Nat :=
  Scalar.ceiling (Scalar.larger t.envelope.release 0 * (rate : σ)) + 1

/-- The samples of the tone at a rate. A tone too short to be held for one sample is silent. -/
def samples (t : Tone τ σ) (rate : Nat) : Array σ :=
  let held := t.heldSamples rate
  if held = 0 then #[]
  else
    let k := t.setting rate
    let (s, samples) := Sounding.hold k held t.start #[]
    Sounding.fade k (t.releaseBound rate) { s with contour := s.contour.noteOff } samples

end Tone

end MusicMacro
