import MusicMacro.Proofs.Melody.Reading
import MusicMacro.Proofs.Text.Spacing

/-!
# Spacing in melodies

Where every token is a single character, as in ASCII, blanks may be put into a melody and taken out
of it anywhere but between two digits. This holds for every text, whatever it has besides commands.
A Japanese token of two characters would be broken by a blank.

* `Tokens.readCommand_ignoresSpacing` — a command is read in spite of the blanks in it.
* `Tokens.commands_respaced`, `play_respaced` — so texts that differ in blanks only are played alike.
* `blanks_insignificant` — so a text is played as before if blanks are put into it.
-/

namespace MusicMacro.Melody

variable {tokens : Tokens}

namespace Tokens

section

variable (hp : ∀ t, (tokens.pattern t).Single)

include hp

theorem pattern_ignoresSpacing (t : Token) : Scanner.IgnoresSpacing (tokens.pattern t).read :=
  Pattern.read_ignoresSpacing (hp t)

theorem readDegree_ignoresSpacing : Scanner.IgnoresSpacing tokens.readDegree := by
  refine Scanner.IgnoresSpacing.firstOf fun r hr => ?_
  obtain ⟨k, -, rfl⟩ := List.mem_map.1 hr
  exact (pattern_ignoresSpacing hp (.degree k)).map _

theorem readAccidental_ignoresSpacing : Scanner.IgnoresSpacing tokens.readAccidental :=
  ((pattern_ignoresSpacing hp (.accidental .sharp)).map _).orElse
    ((pattern_ignoresSpacing hp (.accidental .flat)).map _)

theorem readTone_ignoresSpacing : Scanner.IgnoresSpacing tokens.readTone := by
  intro cs cs' hcs
  have hdegree := readDegree_ignoresSpacing hp cs cs' hcs
  unfold readTone
  generalize tokens.readDegree cs = x at hdegree
  generalize tokens.readDegree cs' = x' at hdegree
  cases hdegree with
  | nothing => exact .nothing
  | both hrest =>
    obtain ⟨haccidentals, hrest⟩ := Scanner.many_respaced (readAccidental_ignoresSpacing hp)
      tokens.readAccidental_progresses hrest
    obtain ⟨hlength, hleft⟩ := LengthText.read_respaced (fun t => hp (.length t)) hrest
    dsimp only [Option.map_some]
    rw [haccidentals, hlength]
    exact .both hleft

theorem readTimed_ignoresSpacing (t : Token) (command : LengthText → Command) :
    Scanner.IgnoresSpacing (tokens.readTimed (tokens.pattern t) command) :=
  LengthTokens.readTimed_ignoresSpacing (fun t => hp (.length t)) (pattern_ignoresSpacing hp t)
    command

theorem readCommand_ignoresSpacing : Scanner.IgnoresSpacing tokens.readCommand := by
  refine Scanner.IgnoresSpacing.firstOf ?_
  simp only [List.mem_cons, List.not_mem_nil, or_false, forall_eq_or_imp, forall_eq]
  exact ⟨readTone_ignoresSpacing hp, readTimed_ignoresSpacing hp .rest _,
    readTimed_ignoresSpacing hp .setLength _, (pattern_ignoresSpacing hp .octaveUp).map _,
    (pattern_ignoresSpacing hp .octaveDown).map _⟩

theorem commands_respaced {cs cs' : List Char} (h : Respaced cs cs') :
    tokens.commands cs = tokens.commands cs' := by
  rw [commands_eq_sweep, commands_eq_sweep]
  exact Scanner.sweep_respaced (readCommand_ignoresSpacing hp) tokens.ignoresBlanks_readCommand
    tokens.readCommand_progresses h

end

end Tokens

/-- Texts that differ in blanks only are played alike. -/
theorem play_respaced (hp : ∀ t, (tokens.pattern t).Single) {cs cs' : List Char}
    (h : Respaced cs cs') (s : State) : play tokens s cs = play tokens s cs' := by
  rw [play, play, Tokens.commands_respaced hp h]

/-- Blanks in any place of a text that is not between two digits change neither the notes nor the
state after them. -/
theorem blanks_insignificant {a b blanks : List Char} (hb : ∀ c ∈ blanks, isBlank c)
    (hplace : ∀ c ∈ a.getLast?, ∀ d ∈ b.head?, ¬(c.isDigit ∧ d.isDigit)) (s : State) :
    play Dialect.standard.melody s (a ++ blanks ++ b) = play Dialect.standard.melody s (a ++ b) :=
  play_respaced (by decide) (respaced_insert hb hplace) s

/-- In the middle of a length text, behind a stray digit and an unknown character. -/
theorem blanks_insignificant_joined :
    let before := ['1', '?', ' ', 'c', '#', '8', '\u3000', '&', '1', '6']
    let after := ['&', '3', '2', '.', '-', '^', 'e', '>']
    let blanks := ['\u3000', '\n', '\u2003']
    (∀ c ∈ blanks, isBlank c) ∧
      (∀ c ∈ before.getLast?, ∀ d ∈ after.head?, ¬(c.isDigit ∧ d.isDigit)) ∧
      play Dialect.standard.melody .start (before ++ blanks ++ after) =
        play Dialect.standard.melody .start (before ++ after) ∧
      play Dialect.standard.melody .start (before ++ after) =
        ([⟨some 37, ⟨21, 64⟩⟩, ⟨some 40, .quarter⟩], ⟨.quarter, 5⟩) := by
  intro before after blanks
  have hb : ∀ c ∈ blanks, isBlank c := List.all_eq_true.1 (by decide)
  have hplace : ∀ c ∈ before.getLast?, ∀ d ∈ after.head?, ¬(c.isDigit ∧ d.isDigit) := by
    rintro c - d ⟨⟩
    exact fun h => absurd h.2 (by decide)
  exact ⟨hb, hplace, blanks_insignificant hb hplace .start, by decide +kernel⟩

/-- Between two digits a blank ends a number, and the second digit belongs to no command. -/
example :
    play Dialect.standard.melody .start ['c', '1', '6'] ≠
      play Dialect.standard.melody .start ['c', '1', ' ', '6'] := by
  decide +kernel

end MusicMacro.Melody
