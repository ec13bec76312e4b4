import MusicMacro.NoteLength.Text

/-!
# Melody commands

A melody is written as commands: a degree of the scale with accidentals and a length, a rest with
a length, a new default length, an octave up or down. A character that starts no command is
passed over.

What commands a text holds depends on the tokens alone, not on octave or default length.

* `Tokens.readCommand_progresses` — reading a command shortens the text.
* `Tokens.commands_cons` — a text is read from left to right, a command or a character at a time.
-/

namespace MusicMacro

/-- A pitch in semitones from the C of octave 1. Of all that is added up 32 bits are kept. -/
abbrev Pitch := Int32

namespace Melody

/-- The degrees of the scale of C. -/
inductive Degree
  | c | d | e | f | g | a | b
deriving DecidableEq, Repr

namespace Degree

/-- The degrees from low to high, the order in which their tokens are tried. -/
def all : List Degree := [c, d, e, f, g, a, b]

/-- The distance from C in semitones. -/
def semitones : Degree → Pitch
  | c => 0
  | d => 2
  | e => 4
  | f => 5
  | g => 7
  | a => 9
  | b => 11

end Degree

/-- A sharp raises a degree by a semitone and a flat lowers it. -/
inductive Accidental
  | sharp
  | flat
deriving DecidableEq, Repr

/-- The semitones that an accidental adds. -/
def Accidental.semitones : Accidental → Pitch
  | sharp => 1
  | flat => -1

/-- The commands of a melody. -/
inductive Command
  | tone (degree : Degree) (accidentals : List Accidental) (length : LengthText)
  | rest (length : LengthText)
  | setLength (length : LengthText)
  | octaveUp
  | octaveDown
deriving DecidableEq, Repr

/-- The tokens of a melody. Where two of them fit, the one that stands first here is read. -/
structure Tokens where
  length : LengthTokens
  degree : Degree → Pattern
  rest : Pattern
  sharp : Pattern
  flat : Pattern
  octaveUp : Pattern
  octaveDown : Pattern
  setLength : Pattern

namespace Tokens

/-- Reads a degree. -/
def readDegree (tokens : Tokens) : Scanner Degree :=
  Scanner.firstOf (Degree.all.map fun k => (tokens.degree k).read.map fun _ => k)

theorem readDegree_progresses (tokens : Tokens) : tokens.readDegree.Progresses :=
  Scanner.Progresses.firstOf fun _ h =>
    let ⟨k, _, eq⟩ := List.mem_map.1 h
    eq ▸ (tokens.degree k).read_progresses.map _

/-- Reads an accidental. -/
def readAccidental (tokens : Tokens) : Scanner Accidental :=
  (tokens.sharp.read.map fun _ => Accidental.sharp).orElse
    (tokens.flat.read.map fun _ => Accidental.flat)

theorem readAccidental_progresses (tokens : Tokens) : tokens.readAccidental.Progresses :=
  (tokens.sharp.read_progresses.map _).orElse (tokens.flat.read_progresses.map _)

/-- Reads a degree with its accidentals and its length. -/
def readTone (tokens : Tokens) : Scanner Command := fun cs =>
  (tokens.readDegree cs).map fun (degree, rest) =>
    let (accidentals, rest) :=
      tokens.readAccidental.many tokens.readAccidental_progresses rest
    let (length, rest) := LengthText.read tokens.length rest
    (.tone degree accidentals length, rest)

/-- Reads a token and then a length. -/
def readTimed (tokens : Tokens) (token : Pattern) (command : LengthText → Command) :
    Scanner Command := fun cs =>
  (token.read cs).map fun (_, rest) =>
    let (length, rest) := LengthText.read tokens.length rest
    (command length, rest)

/-- Reads a command. -/
def readCommand (tokens : Tokens) : Scanner Command :=
  Scanner.firstOf [
    tokens.readTone,
    tokens.readTimed tokens.rest .rest,
    tokens.readTimed tokens.setLength .setLength,
    tokens.octaveUp.read.map fun _ => .octaveUp,
    tokens.octaveDown.read.map fun _ => .octaveDown]

theorem readTone_progresses (tokens : Tokens) : tokens.readTone.Progresses := by
  intro cs command rest h
  obtain ⟨⟨degree, after⟩, hd, eq⟩ := Option.map_eq_some_iff.1 h
  cases eq
  have h1 := tokens.readDegree_progresses _ _ _ hd
  have h2 := Scanner.many_length_le tokens.readAccidental_progresses after
  have h3 := LengthText.read_length_le tokens.length
    (tokens.readAccidental.many tokens.readAccidental_progresses after).2
  exact Nat.lt_of_le_of_lt (Nat.le_trans h3 h2) h1

theorem readTimed_progresses (tokens : Tokens) (token : Pattern)
    (command : LengthText → Command) : (tokens.readTimed token command).Progresses := by
  intro cs _ rest h
  obtain ⟨⟨_, after⟩, ht, eq⟩ := Option.map_eq_some_iff.1 h
  cases eq
  have h1 := token.read_progresses _ _ _ ht
  exact Nat.lt_of_le_of_lt (LengthText.read_length_le tokens.length after) h1

theorem readCommand_progresses (tokens : Tokens) : tokens.readCommand.Progresses :=
  Scanner.Progresses.firstOf (by
    simp only [List.mem_cons, List.not_mem_nil, or_false, forall_eq_or_imp, forall_eq]
    exact ⟨tokens.readTone_progresses, tokens.readTimed_progresses _ _,
      tokens.readTimed_progresses _ _, tokens.octaveUp.read_progresses.map _,
      tokens.octaveDown.read_progresses.map _⟩)

/-- The commands of a text, in order. -/
def commands (tokens : Tokens) (cs : List Char) : List Command :=
  match cs with
  | [] => []
  | c :: cs =>
    match h : tokens.readCommand (c :: cs) with
    | some (command, rest) =>
      have := tokens.readCommand_progresses _ _ _ h
      command :: tokens.commands rest
    | none => tokens.commands cs
termination_by cs.length
decreasing_by all_goals simp only [List.length_cons] at *; omega

theorem commands_nil (tokens : Tokens) : tokens.commands [] = [] := by
  unfold commands; rfl

theorem commands_cons (tokens : Tokens) (c : Char) (cs : List Char) :
    tokens.commands (c :: cs) =
      match tokens.readCommand (c :: cs) with
      | some (command, rest) => command :: tokens.commands rest
      | none => tokens.commands cs := by
  conv => lhs; unfold commands
  split <;> simp_all

end Tokens

end Melody

end MusicMacro
