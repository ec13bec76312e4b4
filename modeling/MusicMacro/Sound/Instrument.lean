import MusicMacro.Sound.Envelope
import MusicMacro.Sound.Oscillator
import MusicMacro.Sound.Recording

/-!
# Instruments

An instrument is an oscillator or a recording. While it sounds, an oscillator goes round its circle
and a recording runs toward its end.
-/

namespace MusicMacro

/-- What makes a sound. -/
inductive Instrument (σ : Type)
  | oscillator (w : Waveform)
  | recording (r : Recording σ)
deriving Repr

/-- How far an instrument has sounded. -/
inductive Source (σ : Type)
  | oscillator (w : Waveform) (o : Oscillator σ)
  | recording (r : Recording σ) (place : σ)

namespace Instrument

variable {σ : Type} [Scalar σ]

/-- The instrument where none is given. -/
def default : Instrument σ := .oscillator .square

/-- The envelope where none is given. -/
def envelope : Instrument σ → Envelope σ
  | oscillator _ => .oscillator
  | recording _ => .recording

omit [Scalar σ] in
/-- The name of an oscillator, and the size of a recording. -/
def toText : Instrument σ → String
  | oscillator w => w.name
  | recording r => s!"sampled({r.frames} samples)"

/-- The instrument at the start of a tone. -/
def start : Instrument σ → Source σ
  | oscillator w => .oscillator w .start
  | recording r => .recording r 0

end Instrument

/-- The next sample of a source, when a frequency is played at a rate. -/
def Source.next {σ : Type} [Scalar σ] [Circular σ] (frequency rate : σ) :
    Source σ → σ × Source σ
  | .oscillator w o =>
    let (x, o) := Oscillator.next w frequency rate o
    (x, .oscillator w o)
  | .recording r place =>
    let (x, place) := r.next frequency rate place
    (x, .recording r place)

end MusicMacro
