import MusicMacro.NoteLength.Text

/-!
# Percussion commands

Percussion is written as commands too: a stroke on a drum with a length, a rest with a length, or
a new default length. A kit says which drums there are and how each is spelt. A character that
starts no command is passed over.

* `Tokens.readCommand_progresses` — reading a command shortens the text.
* `Tokens.commands_cons` — a text is read from left to right, a command or a character at a time.
-/

namespace MusicMacro.Percussion

variable {δ : Type}

/-- The commands of percussion. The length of a stroke is scaled unless it is marked. -/
inductive Command (δ : Type)
  | stroke (drum : δ) (unscaled : Bool) (length : LengthText)
  | rest (length : LengthText)
  | setLength (length : LengthText)
deriving DecidableEq, Repr

/-- The tokens of percussion, apart from the drums. -/
structure Tokens where
  length : LengthTokens
  rest : Pattern
  setLength : Pattern
  /-- The factor of every stroke that is not marked; one if there is none. -/
  scale : Option NoteLength
  /-- Marks a stroke whose length is not scaled. -/
  unscale : Option Pattern

/-- The drums with their tokens, in the order in which they are tried. -/
abbrev Kit (δ : Type) := List (Pattern × δ)

/-- Reads a drum. -/
def Kit.read (kit : Kit δ) : Scanner δ :=
  Scanner.firstOf (kit.map fun (token, drum) => token.read.map fun _ => drum)

theorem Kit.read_progresses (kit : Kit δ) : Scanner.Progresses kit.read :=
  Scanner.Progresses.firstOf fun _ h =>
    let ⟨entry, _, eq⟩ := List.mem_map.1 h
    eq ▸ entry.1.read_progresses.map _

namespace Tokens

/-- Reads the mark that a stroke is not scaled, where there is one. -/
def readMark (tokens : Tokens) (cs : List Char) : Bool × List Char :=
  match tokens.unscale.bind (·.read cs) with
  | some (_, rest) => (true, rest)
  | none => (false, cs)

theorem readMark_length_le (tokens : Tokens) (cs : List Char) :
    (tokens.readMark cs).2.length ≤ cs.length := by
  unfold readMark
  split
  · next h =>
    obtain ⟨p, -, hp⟩ := Option.bind_eq_some_iff.1 h
    exact Nat.le_of_lt (p.read_progresses _ _ _ hp)
  · exact Nat.le_refl _

/-- Reads a stroke. -/
def readStroke (tokens : Tokens) (kit : Kit δ) : Scanner (Command δ) := fun cs =>
  (kit.read cs).map fun (drum, rest) =>
    let (unscaled, rest) := tokens.readMark rest
    let (length, rest) := LengthText.read tokens.length rest
    (.stroke drum unscaled length, rest)

/-- Reads a token and then a length. -/
def readTimed (tokens : Tokens) (token : Pattern) (command : LengthText → Command δ) :
    Scanner (Command δ) := fun cs =>
  (token.read cs).map fun (_, rest) =>
    let (length, rest) := LengthText.read tokens.length rest
    (command length, rest)

/-- Reads a command. -/
def readCommand (tokens : Tokens) (kit : Kit δ) : Scanner (Command δ) :=
  Scanner.firstOf [
    tokens.readStroke kit,
    tokens.readTimed tokens.rest .rest,
    tokens.readTimed tokens.setLength .setLength]

theorem readStroke_progresses (tokens : Tokens) (kit : Kit δ) :
    (tokens.readStroke kit).Progresses := by
  intro cs command rest h
  obtain ⟨⟨drum, after⟩, hd, eq⟩ := Option.map_eq_some_iff.1 h
  cases eq
  have h1 := kit.read_progresses _ _ _ hd
  have h2 := tokens.readMark_length_le after
  have h3 := LengthText.read_length_le tokens.length (tokens.readMark after).2
  exact Nat.lt_of_le_of_lt (Nat.le_trans h3 h2) h1

theorem readTimed_progresses (tokens : Tokens) (token : Pattern)
    (command : LengthText → Command δ) : (tokens.readTimed token command).Progresses := by
  intro cs _ rest h
  obtain ⟨⟨_, after⟩, ht, eq⟩ := Option.map_eq_some_iff.1 h
  cases eq
  have h1 := token.read_progresses _ _ _ ht
  exact Nat.lt_of_le_of_lt (LengthText.read_length_le tokens.length after) h1

theorem readCommand_progresses (tokens : Tokens) (kit : Kit δ) :
    (tokens.readCommand kit).Progresses :=
  Scanner.Progresses.firstOf (by
    simp only [List.mem_cons, List.not_mem_nil, or_false, forall_eq_or_imp, forall_eq]
    exact ⟨tokens.readStroke_progresses kit, tokens.readTimed_progresses _ _,
      tokens.readTimed_progresses _ _⟩)

/-- The commands of a text, in order. -/
def commands (tokens : Tokens) (kit : Kit δ) (cs : List Char) : List (Command δ) :=
  match cs with
  | [] => []
  | c :: cs =>
    match h : tokens.readCommand kit (c :: cs) with
    | some (command, rest) =>
      have := tokens.readCommand_progresses kit _ _ _ h
      command :: tokens.commands kit rest
    | none => tokens.commands kit cs
termination_by cs.length
decreasing_by all_goals simp only [List.length_cons] at *; omega

theorem commands_nil (tokens : Tokens) (kit : Kit δ) : tokens.commands kit [] = [] := by
  unfold commands; rfl

theorem commands_cons (tokens : Tokens) (kit : Kit δ) (c : Char) (cs : List Char) :
    tokens.commands kit (c :: cs) =
      match tokens.readCommand kit (c :: cs) with
      | some (command, rest) => command :: tokens.commands kit rest
      | none => tokens.commands kit cs := by
  conv => lhs; unfold commands
  split <;> simp_all

end Tokens

end MusicMacro.Percussion
