import MusicMacro.Proofs.Agreement
import MusicMacro.Proofs.Percussion.Shadowing
import MusicMacro.Proofs.Text.Loop

/-!
# Reading comes to an end

Whatever the tokens are, spellings that are empty and expressions that match the empty text among
them, a text is read to its end. No token is read without a character, so that every loop moves on
or is left.

* `Melody.length_notes_le`, `Percussion.length_beats_le` — a command yields one event at most.
* `reading_ends` — every loop ends, and how often it goes round.
-/

namespace MusicMacro

theorem Melody.length_notes_le (s : State) (commands : List Command) :
    (notes s commands).length ≤ commands.length := by
  induction commands generalizing s with
  | nil => exact Nat.le_refl _
  | cons c rest ih =>
    have hnote : (c.note? s).toList.length ≤ 1 := Option.length_toList_le
    have := ih (c.next s)
    rw [notes, List.length_append, List.length_cons]
    omega

theorem Percussion.length_beats_le {δ : Type} (tokens : Tokens) (s : State)
    (commands : List (Command δ)) : (beats tokens s commands).length ≤ commands.length := by
  induction commands generalizing s with
  | nil => exact Nat.le_refl _
  | cons c rest ih =>
    have hbeat : (c.beat? tokens s).toList.length ≤ 1 := Option.length_toList_le
    have := ih (c.next s)
    rw [beats, List.length_append, List.length_cons]
    omega

/-- Every loop over numbers, suffixes, accidentals or commands passes over something in each round
that goes on, and so it ends, with no more rounds than there are characters ahead. The loop over
commands ends at the end of the text, and it has yielded no more notes, or beats, than there are
visible characters. -/
theorem reading_ends :
    (∀ tokens : LengthTokens,
      tokens.numberLoop.Ends tokens.readNumbers ∧
      tokens.readSuffix.loop.Ends (tokens.readSuffix.many tokens.readSuffix_progresses)) ∧
    (∀ tokens : Melody.Tokens,
      tokens.readAccidental.loop.Ends
        (tokens.readAccidental.many tokens.readAccidental_progresses) ∧
      tokens.readCommand.sweepLoop.Advances ∧
      ∀ text,
        (∃ n ≤ text.length, tokens.readCommand.sweepLoop.Runs (.start text) n
          (tokens.commands text) ⟨utf8Length text, []⟩) ∧
        ∀ s, (Melody.play tokens s text).1.length ≤ visibleLength text) ∧
    ∀ (δ : Type) (tokens : Percussion.Tokens) (kit : Percussion.Kit δ),
      (tokens.readCommand kit).sweepLoop.Advances ∧
      ∀ text,
        (∃ n ≤ text.length, (tokens.readCommand kit).sweepLoop.Runs (.start text) n
          (tokens.commands kit text) ⟨utf8Length text, []⟩) ∧
        ∀ s, (Percussion.play tokens kit s text).1.length ≤ visibleLength text := by
  refine ⟨fun tokens => ⟨tokens.numberLoop_ends, ?_⟩, fun tokens => ⟨?_, ?_, fun text => ⟨?_, ?_⟩⟩,
    fun δ tokens kit => ⟨?_, fun text => ⟨?_, ?_⟩⟩⟩
  · exact Scanner.loop_ends tokens.readSuffix_progresses tokens.readSuffix_consumes
  · exact Scanner.loop_ends tokens.readAccidental_progresses tokens.readAccidental_consumes
  · exact Scanner.sweepLoop_advances tokens.readCommand_progresses tokens.readCommand_consumes
  · rw [tokens.commands_eq_sweep]
    exact Scanner.sweepLoop_start tokens.readCommand_progresses tokens.readCommand_consumes text
  · intro s
    refine (Melody.length_notes_le s (tokens.commands text)).trans ?_
    rw [tokens.commands_eq_sweep]
    exact Scanner.length_sweep_le tokens.readCommand_progresses tokens.readCommand_consumes
      tokens.ignoresBlanks_readCommand text
  · exact Scanner.sweepLoop_advances (tokens.readCommand_progresses kit)
      (tokens.readCommand_consumes kit)
  · rw [tokens.commands_eq_sweep]
    exact Scanner.sweepLoop_start (tokens.readCommand_progresses kit)
      (tokens.readCommand_consumes kit) text
  · intro s
    refine (Percussion.length_beats_le tokens s (tokens.commands kit text)).trans ?_
    rw [tokens.commands_eq_sweep]
    exact Scanner.length_sweep_le (tokens.readCommand_progresses kit)
      (tokens.readCommand_consumes kit) (tokens.ignoresBlanks_readCommand kit) text

end MusicMacro
