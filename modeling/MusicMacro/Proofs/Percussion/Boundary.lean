import MusicMacro.Proofs.Melody.Boundary
import MusicMacro.Proofs.Percussion.Reading

/-!
# Boundaries in percussion

What divides a melody divides percussion as well: a character that is neither a blank nor a digit
and that stands in no token, where no token is a regular expression. Nothing else is asked of the
tokens; they may have characters in common, be the beginning of each other, or be empty.

* `Kit.read_endsAt`, `Tokens.readCommand_endsAt` — no drum and no command is read across the
  character.
* `Tokens.commands_boundary` — so the commands of the two parts are those of the whole.
* `play_boundary` — and so are the beats.
* `play_divides` — melodies and percussion, with every dialect.
-/

namespace MusicMacro

namespace Percussion

variable {δ : Type} {tokens : Tokens} {kit : Kit δ} {x : Char}

theorem Kit.read_endsAt (hl : ∀ entry ∈ kit, entry.1.listed = true) (hb : isBlank x = false)
    (hx : kit.Lacks x) : Scanner.EndsAt x kit.read := by
  refine Scanner.EndsAt.firstOf fun r hr => ?_
  obtain ⟨entry, he, rfl⟩ := List.mem_map.1 hr
  exact (Pattern.read_endsAt ⟨hl entry he, hx entry he⟩ hb).map _

namespace Tokens

section

variable (hl : ∀ t, (tokens.pattern t).listed = true) (hb : isBlank x = false)
  (hx : tokens.Foreign x)

include hl hb hx

theorem pattern_endsAt (t : Token) : Scanner.EndsAt x (tokens.pattern t).read :=
  Pattern.read_endsAt ⟨hl t, hx.2 t⟩ hb

theorem readMark_endsAt (cs more : List Char) :
    tokens.readMark (cs ++ x :: more) = followedBy (x :: more) (tokens.readMark cs) := by
  rw [readMark_eq, readMark_eq, pattern_endsAt hl hb hx .unscale]
  cases (tokens.pattern .unscale).read cs <;> rfl

theorem readLength_endsAt (cs more : List Char) :
    LengthText.read tokens.length (cs ++ x :: more) =
      followedBy (x :: more) (LengthText.read tokens.length cs) :=
  LengthText.read_endsAt hb hx.1 (fun t => ⟨hl (.length t), hx.2 (.length t)⟩) cs more

theorem readTimed_endsAt (t : Token) (command : LengthText → Command δ) :
    Scanner.EndsAt x (tokens.readTimed (tokens.pattern t) command) :=
  LengthTokens.readTimed_endsAt hb hx.1 (fun t => ⟨hl (.length t), hx.2 (.length t)⟩)
    (pattern_endsAt hl hb hx t) command

theorem readStroke_endsAt (hk : Scanner.EndsAt x kit.read) :
    Scanner.EndsAt x (tokens.readStroke kit) := by
  intro cs more
  rw [readStroke, readStroke, hk]
  cases kit.read cs with
  | none => rfl
  | some read =>
    dsimp only [Option.map_some, followedBy]
    rw [readMark_endsAt hl hb hx]
    dsimp only [followedBy]
    rw [readLength_endsAt hl hb hx]
    rfl

theorem readCommand_endsAt (hk : Scanner.EndsAt x kit.read) :
    Scanner.EndsAt x (tokens.readCommand kit) := by
  refine Scanner.EndsAt.firstOf ?_
  simp only [List.mem_cons, List.not_mem_nil, or_false, forall_eq_or_imp, forall_eq]
  exact ⟨readStroke_endsAt hl hb hx hk, readTimed_endsAt hl hb hx .rest _,
    readTimed_endsAt hl hb hx .setLength _⟩

/-- The character divides the commands. -/
theorem commands_boundary (hk : Scanner.EndsAt x kit.read) (a b : List Char) :
    tokens.commands kit (a ++ x :: b) = tokens.commands kit a ++ tokens.commands kit b := by
  simp only [commands_eq_sweep]
  exact Scanner.sweep_boundary _ (readCommand_endsAt hl hb hx hk) a b

end

end Tokens

/-- The character divides the beats: what stands behind it goes on where what stands in front of it
left off. -/
theorem play_boundary (hl : ∀ t, (tokens.pattern t).listed = true)
    (hk : ∀ entry ∈ kit, entry.1.listed = true) (hb : isBlank x = false) (hx : tokens.Foreign x)
    (hkx : kit.Lacks x) (s : State) (a b : List Char) :
    play tokens kit s (a ++ x :: b) =
      ((play tokens kit s a).1 ++ (play tokens kit (play tokens kit s a).2 b).1,
        (play tokens kit (play tokens kit s a).2 b).2) := by
  rw [play, Tokens.commands_boundary hl hb hx (Kit.read_endsAt hk hb hkx), perform_append]
  rfl

end Percussion

/-! ## Both parts -/

variable {δ : Type} {x : Char}

/-- Whatever the tokens are, as long as none is a regular expression: a character that is no blank,
no digit and in no token divides melodies and percussion. -/
theorem play_divides (hb : isBlank x = false) :
    (∀ tokens : Melody.Tokens, (∀ t, (tokens.pattern t).listed = true) → tokens.Foreign x →
      ∀ s a b, Melody.play tokens s (a ++ x :: b) =
        ((Melody.play tokens s a).1 ++ (Melody.play tokens (Melody.play tokens s a).2 b).1,
          (Melody.play tokens (Melody.play tokens s a).2 b).2)) ∧
    ∀ (tokens : Percussion.Tokens) (kit : Percussion.Kit δ),
      (∀ t, (tokens.pattern t).listed = true) → (∀ entry ∈ kit, entry.1.listed = true) →
      tokens.Foreign x → kit.Lacks x →
      ∀ s a b, Percussion.play tokens kit s (a ++ x :: b) =
        ((Percussion.play tokens kit s a).1 ++
            (Percussion.play tokens kit (Percussion.play tokens kit s a).2 b).1,
          (Percussion.play tokens kit (Percussion.play tokens kit s a).2 b).2) :=
  ⟨fun _ hl hx => Melody.play_boundary hl hb hx,
    fun _ _ hl hk hx hkx => Percussion.play_boundary hl hk hb hx hkx⟩

/-- A token that is the beginning of another, one that is empty, and one that is the rest. -/
def tangled : Percussion.Kit Nat :=
  [(.literal ['t'], 1), (.anyOf [['t', 'a'], []], 2), (.literal ['r'], 3)]

/-- The accidental behind the bar does not belong to the tone in front of it, and neither does the
number behind it to the one that is to be joined. -/
theorem play_divides_tangled :
    (∀ t, (Dialect.standard.melody.pattern t).listed = true) ∧
      Dialect.standard.melody.Foreign '|' ∧
      (∀ t, (Dialect.standard.percussion.pattern t).listed = true) ∧
      (∀ entry ∈ tangled, entry.1.listed = true) ∧ Dialect.standard.percussion.Foreign '|' ∧
      tangled.Lacks '|' ∧
      Melody.play Dialect.standard.melody .start (['c', '#', ' '] ++ '|' :: ['+', '8', 'd']) =
        ([⟨some 37, .quarter⟩, ⟨some 38, .quarter⟩], .start) ∧
      Percussion.play Dialect.standard.percussion tangled .start
          (['t', ' ', '2', '&'] ++ '|' :: ['8', 'r', 'l', '1', 't', 'a']) =
        ([⟨some 1, .half⟩, ⟨some 3, .quarter⟩, ⟨some 1, .whole⟩], ⟨.whole, none⟩) := by
  have hm : ∀ t, (Dialect.standard.melody.pattern t).listed = true := by decide
  have hmx : Dialect.standard.melody.Foreign '|' := by decide
  have hp : ∀ t, (Dialect.standard.percussion.pattern t).listed = true := by decide
  have hk : ∀ entry ∈ tangled, entry.1.listed = true := by decide
  have hpx : Dialect.standard.percussion.Foreign '|' := by decide
  have hkx : tangled.Lacks '|' := by decide
  obtain ⟨hmelody, hpercussion⟩ := play_divides (δ := Nat) (x := '|') (by decide)
  exact ⟨hm, hmx, hp, hk, hpx, hkx, (hmelody _ hm hmx _ _ _).trans (by decide +kernel),
    (hpercussion _ _ hp hk hpx hkx _ _ _).trans (by decide +kernel)⟩

end MusicMacro
