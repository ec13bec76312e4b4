import MusicMacro.Melody.Performance

/-!
# Pitches without lengths

The pitches of a melody, and the octave in which it ends, come from the commands and the octave in
which it starts. The lengths of its notes and the default length play no part.

* `octaveAfter`, `octave_final` — the octave in which a melody ends.
* `pitches`, `map_pitch_notes` — the pitches of its notes.
-/

namespace MusicMacro.Melody

namespace Command

/-- The octave after a command. -/
def octaveAfter (octave : Int32) : Command → Int32
  | octaveUp => octave + 1
  | octaveDown => octave - 1
  | tone .. | rest _ | setLength _ => octave

/-- The pitch of the note that a command yields; a rest has none. -/
def pitch? (octave : Int32) : Command → Option (Option Pitch)
  | tone degree accidentals _ => some (some (pitch octave degree accidentals))
  | rest _ => some none
  | setLength _ | octaveUp | octaveDown => none

theorem octave_next (s : State) (c : Command) : (c.next s).octave = c.octaveAfter s.octave := by
  cases c <;> rfl

theorem map_pitch_note? (s : State) (c : Command) :
    (c.note? s).map Note.pitch = c.pitch? s.octave := by
  cases c <;> rfl

end Command

/-- The octave after a list of commands. -/
def octaveAfter (octave : Int32) (commands : List Command) : Int32 :=
  commands.foldl Command.octaveAfter octave

/-- The pitches of the notes of a list of commands. -/
def pitches (octave : Int32) : List Command → List (Option Pitch)
  | [] => []
  | c :: rest => (c.pitch? octave).toList ++ pitches (c.octaveAfter octave) rest

theorem octave_final (s : State) (commands : List Command) :
    (final s commands).octave = octaveAfter s.octave commands := by
  induction commands generalizing s with
  | nil => rfl
  | cons c rest ih =>
    unfold final octaveAfter
    rw [List.foldl_cons, List.foldl_cons, ← c.octave_next]
    exact ih (c.next s)

theorem map_pitch_notes (s : State) (commands : List Command) :
    (notes s commands).map Note.pitch = pitches s.octave commands := by
  induction commands generalizing s with
  | nil => rfl
  | cons c rest ih =>
    unfold notes pitches
    rw [List.map_append, ih, c.octave_next, ← Option.toList_map, c.map_pitch_note?]

end MusicMacro.Melody
