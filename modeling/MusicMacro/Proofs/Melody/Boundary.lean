import MusicMacro.Proofs.Melody.Reading

/-!
# Boundaries in melodies

Where no token is a regular expression, a foreign character that is no blank divides a melody: what
stands in front of it and what stands behind it are read apart from each other, and performed one
after the other.

* `Tokens.readCommand_endsAt` — no command is read across the character.
* `Tokens.commands_boundary` — so the commands of the two parts are those of the whole.
* `play_boundary` — and so are the notes.
-/

namespace MusicMacro.Melody

variable {tokens : Tokens} {x : Char}

namespace Tokens

theorem Foreign.lacks (hx : tokens.Foreign x) (hl : ∀ t, (tokens.pattern t).listed = true)
    (t : Token) : (tokens.pattern t).Lacks x :=
  ⟨hl t, hx.2 t⟩

section

variable (hl : ∀ t, (tokens.pattern t).listed = true) (hb : isBlank x = false)
  (hx : tokens.Foreign x)

include hl hb hx

theorem pattern_endsAt (t : Token) : Scanner.EndsAt x (tokens.pattern t).read :=
  Pattern.read_endsAt (hx.lacks hl t) hb

theorem readDegree_endsAt : Scanner.EndsAt x tokens.readDegree := by
  refine Scanner.EndsAt.firstOf fun r hr => ?_
  obtain ⟨k, -, rfl⟩ := List.mem_map.1 hr
  exact (pattern_endsAt hl hb hx (.degree k)).map _

theorem readAccidental_endsAt : Scanner.EndsAt x tokens.readAccidental :=
  ((pattern_endsAt hl hb hx (.accidental .sharp)).map _).orElse
    ((pattern_endsAt hl hb hx (.accidental .flat)).map _)

theorem readLength_endsAt (cs more : List Char) :
    LengthText.read tokens.length (cs ++ x :: more) =
      followedBy (x :: more) (LengthText.read tokens.length cs) :=
  LengthText.read_endsAt hb hx.1 (fun t => hx.lacks hl (.length t)) cs more

theorem readTone_endsAt : Scanner.EndsAt x tokens.readTone := by
  intro cs more
  rw [readTone, readTone, readDegree_endsAt hl hb hx]
  cases tokens.readDegree cs with
  | none => rfl
  | some read =>
    dsimp only [Option.map_some, followedBy]
    rw [Scanner.many_endsAt (readAccidental_endsAt hl hb hx)]
    dsimp only [followedBy]
    rw [readLength_endsAt hl hb hx]
    rfl

theorem readTimed_endsAt (t : Token) (command : LengthText → Command) :
    Scanner.EndsAt x (tokens.readTimed (tokens.pattern t) command) :=
  LengthTokens.readTimed_endsAt hb hx.1 (fun t => hx.lacks hl (.length t))
    (pattern_endsAt hl hb hx t) command

theorem readCommand_endsAt : Scanner.EndsAt x tokens.readCommand := by
  refine Scanner.EndsAt.firstOf ?_
  simp only [List.mem_cons, List.not_mem_nil, or_false, forall_eq_or_imp, forall_eq]
  exact ⟨readTone_endsAt hl hb hx, readTimed_endsAt hl hb hx .rest _,
    readTimed_endsAt hl hb hx .setLength _, (pattern_endsAt hl hb hx .octaveUp).map _,
    (pattern_endsAt hl hb hx .octaveDown).map _⟩

/-- The character divides the commands. -/
theorem commands_boundary (a b : List Char) :
    tokens.commands (a ++ x :: b) = tokens.commands a ++ tokens.commands b := by
  simp only [commands_eq_sweep]
  exact Scanner.sweep_boundary _ (readCommand_endsAt hl hb hx) a b

end

end Tokens

/-- The character divides the notes: what stands behind it goes on where what stands in front of it
left off. -/
theorem play_boundary (hl : ∀ t, (tokens.pattern t).listed = true) (hb : isBlank x = false)
    (hx : tokens.Foreign x) (s : State) (a b : List Char) :
    play tokens s (a ++ x :: b) =
      ((play tokens s a).1 ++ (play tokens (play tokens s a).2 b).1,
        (play tokens (play tokens s a).2 b).2) := by
  rw [play, Tokens.commands_boundary hl hb hx, perform_append]
  rfl

end MusicMacro.Melody
