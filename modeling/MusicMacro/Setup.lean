import MusicMacro.Dialect
import MusicMacro.Sound.Instrument

/-!
# Setups

A setup says how a sequencer reads music and with which sounds it plays it.

* `Setup.check_eq_ok_iff` — what a setup has to satisfy.
-/

namespace MusicMacro

/-- How much may be queued before a submission waits. -/
inductive Ceiling (τ : Type)
  | unbounded
  | seconds (t : τ)
deriving DecidableEq, Repr

/-- How music is read and played. -/
structure Setup (τ σ : Type) where
  maxQueued : Ceiling τ
  /-- The tempo with which every submission starts. -/
  tempo : Nat
  /-- The amplitude of every tone. -/
  amplitude : τ
  melody : Melody.Tokens
  percussion : Percussion.Tokens
  kit : Percussion.Kit (Instrument σ)
  /-- The instruments that `@0`, `@1` and so on choose; the first is the default. -/
  instruments : List (Instrument σ)

/-- What is wrong with a setup. -/
inductive SetupError (τ : Type)
  | noInstrument
  | badCeiling (seconds : τ)
  | zeroTempo
  | badAmplitude (amplitude : τ)
deriving DecidableEq, Repr

variable {τ σ : Type} [Scalar τ]

/-- Whether a ceiling is a number of seconds that is not negative, or unbounded. -/
def Ceiling.isValid : Ceiling τ → Bool
  | unbounded => true
  | seconds t => Scalar.isNumber t && !decide (t < 0)

namespace Setup

/-- One square wave, ASCII tokens, no drums, 120 quarter notes in a minute. -/
def default : Setup τ σ where
  maxQueued := .seconds ((60 : Nat) : τ)
  tempo := 120
  amplitude := 1 / ((2 : Nat) : τ)
  melody := Dialect.standard.melody
  percussion := Dialect.standard.percussion
  kit := []
  instruments := [.default]

/-- The first fault of a setup, if it has one. -/
def check (s : Setup τ σ) : Except (SetupError τ) Unit :=
  if s.instruments.isEmpty then .error .noInstrument
  else
    match s.maxQueued with
    | .seconds t => if (Ceiling.seconds t).isValid then rest else .error (.badCeiling t)
    | .unbounded => rest
where
  /-- The faults that come after those of the instruments and of the ceiling. -/
  rest : Except (SetupError τ) Unit :=
    if s.tempo = 0 then .error .zeroTempo
    else if 0 ≤ s.amplitude ∧ s.amplitude ≤ 1 then .ok ()
    else .error (.badAmplitude s.amplitude)

theorem check_eq_ok_iff (s : Setup τ σ) :
    s.check = .ok () ↔
      s.instruments ≠ [] ∧ s.maxQueued.isValid ∧ s.tempo ≠ 0 ∧
        0 ≤ s.amplitude ∧ s.amplitude ≤ 1 := by
  have hrest : check.rest s = .ok () ↔ s.tempo ≠ 0 ∧ 0 ≤ s.amplitude ∧ s.amplitude ≤ 1 := by
    unfold check.rest
    split
    · next h => simp [h]
    · next h => split <;> simp_all
  unfold check
  split
  · next h => simp_all
  · next h =>
    have h : s.instruments ≠ [] := by simpa using h
    split
    · next t ht =>
      split
      · next hv => simp [hrest, h, ht, hv]
      · next hv => simp [ht, hv]
    · next ht => simp [hrest, h, ht, Ceiling.isValid]

end Setup

end MusicMacro
