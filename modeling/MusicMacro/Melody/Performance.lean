import MusicMacro.Melody.Command
import MusicMacro.Number.Scalar

/-!
# Performing a melody

A performer keeps an octave and a default length. Commands change them or yield notes. Octaves and
pitches are counted in 32 bits, and a count that is too large or too small goes round.

The A of octave 4 has pitch 45 and 440 Hz.

* `perform_append` — performing two lists of commands in turn is performing them as one.
-/

namespace MusicMacro

/-- The frequency of a pitch in equal temperament. -/
def Pitch.frequency {τ : Type} [Scalar τ] [Tuned τ] (p : Pitch) : τ :=
  ((440 : Nat) : τ) * Tuned.ratio (p - 45).toInt

namespace Melody

/-- What a performer keeps from command to command. -/
structure State where
  length : NoteLength
  octave : Int32
deriving DecidableEq, Repr

/-- The octave in which a melody starts. -/
def startOctave : Int32 := 4

/-- Quarter notes in octave 4. -/
def State.start : State := ⟨.quarter, startOctave⟩

/-- A note, or a rest where there is no pitch. -/
structure Note where
  pitch : Option Pitch
  length : NoteLength
deriving DecidableEq, Repr

/-- The pitch of a degree in an octave. -/
def pitch (octave : Int32) (degree : Degree) (accidentals : List Accidental) : Pitch :=
  accidentals.foldl (fun p a => p + a.semitones) (degree.semitones + 12 * (octave - 1))

namespace Command

/-- The note that a command yields. -/
def note? (s : State) : Command → Option Note
  | tone degree accidentals length =>
    some ⟨some (pitch s.octave degree accidentals), length.value s.length⟩
  | rest length => some ⟨none, length.value s.length⟩
  | setLength _ | octaveUp | octaveDown => none

/-- The state after a command. -/
def next (s : State) : Command → State
  | tone .. | rest _ => s
  | setLength length => { s with length := length.value s.length }
  | octaveUp => { s with octave := s.octave + 1 }
  | octaveDown => { s with octave := s.octave - 1 }

/-- The length operations of a command that do not fit. -/
def overflows (s : State) : Command → List NoteLength.Overflow
  | tone _ _ length | rest length | setLength length => length.overflows s.length
  | octaveUp | octaveDown => []

end Command

/-- The notes of a list of commands. -/
def notes (s : State) : List Command → List Note
  | [] => []
  | c :: rest => (c.note? s).toList ++ notes (c.next s) rest

/-- The state after a list of commands. -/
def final (s : State) (commands : List Command) : State := commands.foldl Command.next s

/-- The length operations of a list of commands that do not fit. -/
def overflows (s : State) : List Command → List NoteLength.Overflow
  | [] => []
  | c :: rest => c.overflows s ++ overflows (c.next s) rest

/-- The notes of a list of commands, and the state after it. -/
def perform (s : State) (commands : List Command) : List Note × State :=
  (notes s commands, final s commands)

theorem notes_append (s : State) (xs ys : List Command) :
    notes s (xs ++ ys) = notes s xs ++ notes (final s xs) ys := by
  induction xs generalizing s with
  | nil => rfl
  | cons c xs ih => simp [notes, final, ih, List.append_assoc]

theorem final_append (s : State) (xs ys : List Command) :
    final s (xs ++ ys) = final (final s xs) ys := List.foldl_append

theorem perform_append (s : State) (xs ys : List Command) :
    perform s (xs ++ ys) =
      ((perform s xs).1 ++ (perform (perform s xs).2 ys).1, (perform (perform s xs).2 ys).2) := by
  simp [perform, notes_append, final_append]

/-- Reads and performs a text. -/
def play (tokens : Tokens) (s : State) (text : List Char) : List Note × State :=
  perform s (tokens.commands text)

end Melody

end MusicMacro
