import MusicMacro.Dialect
import MusicMacro.Proofs.Text.Sweep

/-!
# The grammar of melodies

A melody is written as its commands, in order. A command is a token, and accidentals and a length
text where it has them; blanks may stand in front of every token and of every number. Between
commands there may be any characters that are neither digits nor in a token.

* `Token`, `Tokens.pattern` — all tokens of a melody, as one family.
* `Tokens.Written`, `Tokens.Score` — how a command, and a melody, is written.
* `Tokens.exists_score` — all commands can be written.
* `Dialect.apart_melody` — in both dialects the first character of a token tells which it is.
-/

namespace MusicMacro

namespace Melody

/-! ## Tokens -/

/-- The tokens of a melody. -/
inductive Token
  | degree (k : Degree)
  | rest
  | setLength
  | octaveUp
  | octaveDown
  | accidental (a : Accidental)
  | length (t : LengthToken)
deriving DecidableEq, Repr

namespace Token

/-- All tokens. -/
def all : List Token :=
  Degree.all.map degree ++ [rest, setLength, octaveUp, octaveDown] ++
    [.sharp, .flat].map accidental ++ [.hold, .dot, .join].map length

theorem mem_all (t : Token) : t ∈ all := by
  rcases t with k | _ | _ | _ | _ | a | t
  · cases k <;> decide
  · decide
  · decide
  · decide
  · decide
  · cases a <;> decide
  · cases t <;> decide

instance (P : Token → Prop) [DecidablePred P] : Decidable (∀ t, P t) :=
  decidable_of_iff (∀ t ∈ all, P t) ⟨fun h t => h t t.mem_all, fun h t _ => h t⟩

end Token

/-- The token with which a command begins. -/
def Command.token : Command → Token
  | tone degree _ _ => .degree degree
  | rest _ => .rest
  | setLength _ => .setLength
  | octaveUp => .octaveUp
  | octaveDown => .octaveDown

namespace Tokens

/-- How a token of a melody is spelt. -/
def pattern (tokens : Tokens) : Token → Pattern
  | .degree k => tokens.degree k
  | .rest => tokens.rest
  | .setLength => tokens.setLength
  | .octaveUp => tokens.octaveUp
  | .octaveDown => tokens.octaveDown
  | .accidental .sharp => tokens.sharp
  | .accidental .flat => tokens.flat
  | .length t => tokens.length.pattern t

/-! ## Writing -/

/-- The text writes accidentals. -/
def Accidentals (tokens : Tokens) : List Accidental → List Char → Prop :=
  Each fun a => (tokens.pattern (.accidental a)).Spelt

/-- The text writes a command. -/
inductive Written (tokens : Tokens) : Command → List Char → Prop
  | tone {k : Degree} {accidentals : List Accidental} {t : LengthText} {a b c : List Char} :
    (tokens.degree k).Spelt a → tokens.Accidentals accidentals b → tokens.length.Written t c →
      Written tokens (.tone k accidentals t) (a ++ (b ++ c))
  | rest {t : LengthText} {a b : List Char} :
    tokens.rest.Spelt a → tokens.length.Written t b → Written tokens (.rest t) (a ++ b)
  | setLength {t : LengthText} {a b : List Char} :
    tokens.setLength.Spelt a → tokens.length.Written t b → Written tokens (.setLength t) (a ++ b)
  | octaveUp {a : List Char} : tokens.octaveUp.Spelt a → Written tokens .octaveUp a
  | octaveDown {a : List Char} : tokens.octaveDown.Spelt a → Written tokens .octaveDown a

/-- A character that is not a digit and occurs in no token. -/
def Foreign (tokens : Tokens) (c : Char) : Prop :=
  c.isDigit = false ∧ ∀ t, ∀ spelling ∈ (tokens.pattern t).spellings, c ∉ spelling

instance (tokens : Tokens) (c : Char) : Decidable (tokens.Foreign c) :=
  inferInstanceAs (Decidable (_ ∧ _))

/-- The text writes commands, with any foreign characters between them. -/
inductive Score (tokens : Tokens) : List Command → List Char → Prop
  | nil : Score tokens [] []
  | foreign {commands : List Command} {c : Char} {text : List Char} :
    tokens.Foreign c → Score tokens commands text → Score tokens commands (c :: text)
  | command {command : Command} {commands : List Command} {a b : List Char} :
    tokens.Written command a → Score tokens commands b → Score tokens (command :: commands) (a ++ b)

/-! ## What can be written -/

theorem exists_written {tokens : Tokens} (h : ∀ t, (tokens.pattern t).spellings ≠ [])
    (command : Command) : ∃ text, tokens.Written command text := by
  obtain ⟨a, ha⟩ := Pattern.exists_spelt (h command.token)
  have hlength : ∀ t, ∃ b, tokens.length.Written t b :=
    LengthTokens.exists_written fun t => h (.length t)
  cases command with
  | tone k accidentals t =>
    obtain ⟨b, hb⟩ := Each.exists_text
      (fun (x : Accidental) => Pattern.exists_spelt (h (.accidental x))) accidentals
    obtain ⟨c, hc⟩ := hlength t
    exact ⟨a ++ (b ++ c), .tone ha hb hc⟩
  | rest t =>
    obtain ⟨b, hb⟩ := hlength t
    exact ⟨a ++ b, .rest ha hb⟩
  | setLength t =>
    obtain ⟨b, hb⟩ := hlength t
    exact ⟨a ++ b, .setLength ha hb⟩
  | octaveUp => exact ⟨a, .octaveUp ha⟩
  | octaveDown => exact ⟨a, .octaveDown ha⟩

theorem score_iff_scattered {tokens : Tokens} {commands : List Command} {text : List Char} :
    tokens.Score commands text ↔ Scattered tokens.Written tokens.Foreign commands text := by
  constructor
  · intro h
    induction h with
    | nil => exact .nil
    | foreign hc _ ih => exact .foreign hc ih
    | command hw _ ih => exact .value hw ih
  · intro h
    induction h with
    | nil => exact .nil
    | foreign hc _ ih => exact .foreign hc ih
    | value hw _ ih => exact .command hw ih

/-- All commands can be written, if every token can. -/
theorem exists_score {tokens : Tokens} (h : ∀ t, (tokens.pattern t).spellings ≠ [])
    (commands : List Command) : ∃ text, tokens.Score commands text := by
  simp only [score_iff_scattered]
  exact exists_scattered_iff.2 fun command _ => exists_written h command

/-! ## What comes next -/

/-- A character that could go on with a command after its first token. -/
def Continues (tokens : Tokens) (c : Char) : Prop :=
  tokens.length.Continues c ∨ ∃ a, c ∈ (tokens.pattern (.accidental a)).heads

variable {tokens : Tokens}

theorem not_mem_heads_of_foreign {c : Char} (h : tokens.Foreign c) (t : Token) :
    c ∉ (tokens.pattern t).heads := Pattern.not_mem_heads (h.2 t)

theorem not_continues_of_foreign {c : Char} (h : tokens.Foreign c) : ¬tokens.Continues c := by
  rintro ((hd | ⟨t, ht⟩) | ⟨a, ha⟩)
  · rw [h.1] at hd
    cases hd
  · exact not_mem_heads_of_foreign h (.length t) ht
  · exact not_mem_heads_of_foreign h (.accidental a) ha

/-- What does not go on with a command does not go on with its length. -/
theorem next_length {rest : List Char} (h : Next (fun c => ¬tokens.Continues c) rest) :
    Next (fun c => ¬tokens.length.Continues c) rest :=
  h.mono fun _ hc hl => hc (.inl hl)

/-- A command is its first token, and what goes on with it. -/
theorem Written.spelt {command : Command} {text : List Char} (h : tokens.Written command text) :
    ∃ a b, (tokens.pattern command.token).Spelt a ∧ text = a ++ b := by
  cases h with
  | tone hk _ _ => exact ⟨_, _, hk, rfl⟩
  | rest ht _ => exact ⟨_, _, ht, rfl⟩
  | setLength ht _ => exact ⟨_, _, ht, rfl⟩
  | octaveUp ht => exact ⟨_, [], ht, (List.append_nil _).symm⟩
  | octaveDown ht => exact ⟨_, [], ht, (List.append_nil _).symm⟩

variable (ha : Apart tokens.pattern)

include ha

/-- The tokens of lengths are apart from each other. -/
theorem apart_length : Apart tokens.length.pattern :=
  Apart.comp ha fun t t' (h : Token.length t = .length t') => by
    cases h
    rfl

/-- What begins a command does not go on with one. -/
theorem not_continues_of_mem_heads (command : Command) {c : Char}
    (hc : c ∈ (tokens.pattern command.token).heads) : ¬tokens.Continues c := by
  rintro ((hd | ⟨t, ht⟩) | ⟨a, hm⟩)
  · rw [((ha.plain command.token).visible c hc).2] at hd
    cases hd
  · have heq : command.token = .length t := ha.apart _ (.length t) c hc ht
    cases command <;> cases heq
  · have heq : command.token = .accidental a := ha.apart _ (.accidental a) c hc hm
    cases command <;> cases heq

/-- No token but the first one of a command is read where the command is written. -/
theorem Written.read_other {command : Command} {text : List Char}
    (h : tokens.Written command text) (rest : List Char) {t : Token} (ht : command.token ≠ t) :
    (tokens.pattern t).read (text ++ rest) = none := by
  obtain ⟨a, b, hs, rfl⟩ := h.spelt
  rw [List.append_assoc]
  exact ha.read_other ht hs _

/-- A command goes on with no other. -/
theorem Written.next {command : Command} {text : List Char} (h : tokens.Written command text)
    (more : List Char) : Next (fun c => ¬tokens.Continues c) (text ++ more) := by
  obtain ⟨a, b, hs, rfl⟩ := h.spelt
  rw [List.append_assoc]
  exact hs.next (ha.plain _) (fun c hc => not_continues_of_mem_heads ha command hc) _

end Tokens

end Melody

/-! ## The dialects -/

instance (pattern : Melody.Token → Pattern) : Decidable (Apart pattern) :=
  decidable_of_iff
    ((∀ i, (pattern i).Plain) ∧
      ∀ i j, ((pattern i).heads.all fun c => decide (c ∈ (pattern j).heads → i = j)) = true)
    apart_iff.symm

theorem Dialect.spellings_melody (d : Dialect) :
    ∀ t, (d.melody.pattern t).spellings ≠ [] := by
  cases d <;> decide

theorem Dialect.apart_melody (d : Dialect) : Apart d.melody.pattern := by
  cases d <;> decide +kernel

end MusicMacro
