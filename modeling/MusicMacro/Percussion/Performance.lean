import MusicMacro.Percussion.Command

/-!
# Performing percussion

A percussionist keeps a default length, and the octave of the melody that the voice played before,
which no percussion command touches.

* `perform_append` — performing two lists of commands in turn is performing them as one.
* `octave_final` — percussion leaves the octave alone.
-/

namespace MusicMacro.Percussion

variable {δ : Type}

/-- What a percussionist keeps from command to command. -/
structure State where
  length : NoteLength
  /-- The octave of the melody before; none if the voice has not played one. -/
  octave : Option Int32
deriving DecidableEq, Repr

/-- Quarter notes, and no melody before. -/
def State.start : State := ⟨.quarter, none⟩

/-- A stroke, or a rest where there is no drum. -/
structure Beat (δ : Type) where
  drum : Option δ
  length : NoteLength
deriving DecidableEq, Repr

/-- The factor of a stroke. -/
def Tokens.factor (tokens : Tokens) (unscaled : Bool) : NoteLength :=
  if unscaled then .whole else tokens.scale.getD .whole

namespace Command

/-- The beat that a command yields. -/
def beat? (tokens : Tokens) (s : State) : Command δ → Option (Beat δ)
  | stroke drum unscaled length =>
    some ⟨some drum, length.value s.length * tokens.factor unscaled⟩
  | rest length => some ⟨none, length.value s.length⟩
  | setLength _ => none

/-- The state after a command. -/
def next (s : State) : Command δ → State
  | stroke .. | rest _ => s
  | setLength length => { s with length := length.value s.length }

/-- The length operations of a command that do not fit. -/
def overflows (tokens : Tokens) (s : State) : Command δ → List NoteLength.Overflow
  | stroke _ unscaled length =>
    length.overflows s.length ++
      NoteLength.mulOverflow (length.value s.length) (tokens.factor unscaled)
  | rest length | setLength length => length.overflows s.length

end Command

/-- The beats of a list of commands. -/
def beats (tokens : Tokens) (s : State) : List (Command δ) → List (Beat δ)
  | [] => []
  | c :: rest => (c.beat? tokens s).toList ++ beats tokens (c.next s) rest

/-- The state after a list of commands. -/
def final (s : State) (commands : List (Command δ)) : State := commands.foldl Command.next s

/-- The length operations of a list of commands that do not fit. -/
def overflows (tokens : Tokens) (s : State) : List (Command δ) → List NoteLength.Overflow
  | [] => []
  | c :: rest => c.overflows tokens s ++ overflows tokens (c.next s) rest

/-- The beats of a list of commands, and the state after it. -/
def perform (tokens : Tokens) (s : State) (commands : List (Command δ)) : List (Beat δ) × State :=
  (beats tokens s commands, final s commands)

theorem beats_append (tokens : Tokens) (s : State) (xs ys : List (Command δ)) :
    beats tokens s (xs ++ ys) = beats tokens s xs ++ beats tokens (final s xs) ys := by
  induction xs generalizing s with
  | nil => rfl
  | cons c xs ih => simp [beats, final, ih, List.append_assoc]

theorem final_append (s : State) (xs ys : List (Command δ)) :
    final s (xs ++ ys) = final (final s xs) ys := List.foldl_append

theorem perform_append (tokens : Tokens) (s : State) (xs ys : List (Command δ)) :
    perform tokens s (xs ++ ys) =
      ((perform tokens s xs).1 ++ (perform tokens (perform tokens s xs).2 ys).1,
        (perform tokens (perform tokens s xs).2 ys).2) := by
  simp [perform, beats_append, final_append]

theorem octave_final (s : State) (commands : List (Command δ)) :
    (final s commands).octave = s.octave := by
  induction commands generalizing s with
  | nil => rfl
  | cons c rest ih => rw [final, List.foldl_cons]; exact (ih _).trans (by cases c <;> rfl)

/-- Reads and performs a text. -/
def play (tokens : Tokens) (kit : Kit δ) (s : State) (text : List Char) :
    List (Beat δ) × State :=
  perform tokens s (tokens.commands kit text)

end MusicMacro.Percussion
