import MusicMacro.Number.Scalar
import MusicMacro.Sound.Noise

/-!
# Oscillators

An oscillator goes round a circle and draws a wave as it goes. Noise is the exception: its samples
are random numbers.

* `Waveform.ofName?_name` — every waveform has a name that is read back.
-/

namespace MusicMacro

/-- The waves of an oscillator. -/
inductive Waveform
  | sine
  | square
  | triangle
  | sawtooth
  | noise
deriving DecidableEq, Repr

namespace Waveform

def all : List Waveform := [sine, square, triangle, sawtooth, noise]

def name : Waveform → String
  | sine => "sine"
  | square => "square"
  | triangle => "triangle"
  | sawtooth => "sawtooth"
  | noise => "noise"

/-- A text in lower case, as far as it is ASCII. -/
def lowerCase (s : String) : List Char := s.toList.map Char.toLower

/-- The waveform with a name, in any letter case. -/
def ofName? (s : String) : Option Waveform := all.find? fun w => lowerCase w.name == lowerCase s

theorem ofName?_name (w : Waveform) : ofName? w.name = some w := by
  cases w <;> decide +kernel

/-- Why a text names no waveform. -/
def unknownName (s : String) : String :=
  "unknown shape: " ++ s ++ " (expected one of " ++ ", ".intercalate (all.map name) ++ ")"

end Waveform

/-- Where an oscillator is: its angle, and its place in the noise. -/
structure Oscillator (σ : Type) where
  phase : σ
  noise : Noise
deriving Repr

namespace Oscillator

variable {σ : Type} [Scalar σ] [Circular σ]

/-- An oscillator that has not started. -/
def start : Oscillator σ := ⟨0, .start⟩

/-- A full circle. -/
def circle : σ := ((2 : Nat) : σ) * Circular.pi

/-- The triangle wave over a turn `t` that runs from zero to one. -/
def triangle (t : σ) : σ :=
  let four : σ := ((4 : Nat) : σ)
  if t < 1 / four then four * t
  else if t < ((3 : Nat) : σ) / four then ((2 : Nat) : σ) - four * t
  else four * t - four

/-- A random sample between -1 and 1 from the upper 24 bits of a word. -/
def noiseSample (w : UInt32) : σ :=
  ((2 : Nat) : σ) * (((w >>> 8).toNat : σ) / ((0x1000000 : Nat) : σ)) - 1

/-- The value of a wave other than noise at an angle. -/
def wave (w : Waveform) (phase : σ) : σ :=
  match w with
  | .sine => Circular.sine phase
  | .square => if phase < Circular.pi then 1 else -1
  | .sawtooth => phase / Circular.pi - 1
  | .triangle => triangle (phase / circle)
  | .noise => 0

/-- The angle one sample later. -/
def turn (frequency rate phase : σ) : σ :=
  Scalar.remainder (phase + circle * frequency / rate) circle

/-- The next sample, when a frequency is played at a rate. -/
def next (w : Waveform) (frequency rate : σ) (o : Oscillator σ) : σ × Oscillator σ :=
  let phase := turn frequency rate o.phase
  match w with
  | .noise =>
    let (word, noise) := o.noise.draw
    (noiseSample word, ⟨phase, noise⟩)
  | w => (wave w o.phase, { o with phase := phase })

end Oscillator

end MusicMacro
