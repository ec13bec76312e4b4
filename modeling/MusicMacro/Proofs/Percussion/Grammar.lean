import Mathlib.Data.List.Pairwise
import MusicMacro.Dialect
import MusicMacro.Proofs.Text.Sweep

/-!
# The grammar of percussion

Percussion is written as its commands, in order: a stroke is the token of a drum, a mark where its
length is not to be scaled, and a length text; a rest and a new default length are a token and a
length text. Blanks may stand in front of every token and of every number. Between commands there
may be any characters that are neither digits nor in a token.

The kit is not part of a dialect. Its tokens may have first characters in common, as long as none
of them is the beginning of another and they take no character from the other tokens.

* `Token`, `Tokens.pattern` — all tokens but those of the drums, as one family.
* `Kit.Distinct` — the tokens of the drums can be told apart from each other and from the others.
* `Tokens.Written`, `Tokens.Score` — how a command, and a whole piece, is written.
* `Tokens.exists_score_iff` — which commands can be written.
* `Dialect.apart_percussion` — in both dialects the first character of a token tells which it is.
-/

namespace MusicMacro

namespace Percussion

variable {δ : Type}

/-! ## Tokens -/

/-- The tokens of percussion, apart from those of the drums. -/
inductive Token
  | rest
  | setLength
  | unscale
  | length (t : LengthToken)
deriving DecidableEq, Repr

namespace Token

/-- All tokens. -/
def all : List Token := [rest, setLength, unscale] ++ [.hold, .dot, .join].map length

theorem mem_all (t : Token) : t ∈ all := by
  rcases t with _ | _ | _ | t
  · decide
  · decide
  · decide
  · cases t <;> decide

instance (P : Token → Prop) [DecidablePred P] : Decidable (∀ t, P t) :=
  decidable_of_iff (∀ t ∈ all, P t) ⟨fun h t => h t t.mem_all, fun h t _ => h t⟩

end Token

namespace Tokens

/-- How a token of percussion is spelt. A mark that there is not has no spelling. -/
def pattern (tokens : Tokens) : Token → Pattern
  | .rest => tokens.rest
  | .setLength => tokens.setLength
  | .unscale => tokens.unscale.getD (.anyOf [])
  | .length t => tokens.length.pattern t

/-- A character that is not a digit and occurs in no token, those of the drums aside. -/
def Foreign (tokens : Tokens) (c : Char) : Prop :=
  c.isDigit = false ∧ ∀ t, ∀ spelling ∈ (tokens.pattern t).spellings, c ∉ spelling

instance (tokens : Tokens) (c : Char) : Decidable (tokens.Foreign c) :=
  inferInstanceAs (Decidable (_ ∧ _))

end Tokens

namespace Kit

/-- A character that occurs in no token of a drum. -/
def Lacks (kit : Kit δ) (c : Char) : Prop :=
  ∀ entry ∈ kit, ∀ spelling ∈ entry.1.spellings, c ∉ spelling

instance (kit : Kit δ) (c : Char) : Decidable (kit.Lacks c) :=
  inferInstanceAs (Decidable (∀ entry ∈ kit, _))

/-- The kit of drums with one spelling each. -/
def ofTokens (drums : List (List Char × δ)) : Kit δ :=
  drums.map fun (token, drum) => (.literal token, drum)

/-- The tokens of the drums are not empty, none of them is the beginning of another, and they have
no blank, no digit and no character of another token in them. -/
structure Distinct (tokens : Tokens) (drums : List (List Char × δ)) : Prop where
  nonempty : ∀ entry ∈ drums, entry.1 ≠ []
  prefixFree : drums.Pairwise fun entry entry' => ¬entry.1 <+: entry'.1 ∧ ¬entry'.1 <+: entry.1
  own : ∀ entry ∈ drums, ∀ c ∈ entry.1, isBlank c = false ∧ tokens.Foreign c

variable {tokens : Tokens} {drums : List (List Char × δ)} {p : Pattern} {drum : δ}

instance : Decidable (Distinct tokens drums) :=
  decidable_of_iff
    ((∀ entry ∈ drums, entry.1 ≠ []) ∧
      drums.Pairwise (fun entry entry' => ¬entry.1 <+: entry'.1 ∧ ¬entry'.1 <+: entry.1) ∧
      ∀ entry ∈ drums, (entry.1.all fun c => !isBlank c && decide (tokens.Foreign c)) = true) <| by
    simp only [List.all_eq_true, Bool.and_eq_true, Bool.not_eq_true', decide_eq_true_eq]
    exact ⟨fun h => ⟨h.1, h.2.1, h.2.2⟩, fun h => ⟨h.nonempty, h.prefixFree, h.own⟩⟩

theorem mem_ofTokens : (p, drum) ∈ ofTokens drums ↔ ∃ token, (token, drum) ∈ drums ∧
    p = .literal token := by
  unfold ofTokens
  rw [List.mem_map]
  constructor
  · rintro ⟨⟨token, d⟩, he, heq⟩
    cases heq
    exact ⟨token, he, rfl⟩
  · rintro ⟨token, he, rfl⟩
    exact ⟨(token, drum), he, rfl⟩

/-- Where the token of one drum is the beginning of another there is only one drum. -/
theorem Distinct.eq_of_prefix (hk : Distinct tokens drums) {entry entry' : List Char × δ}
    (he : entry ∈ drums) (he' : entry' ∈ drums)
    (h : entry.1 <+: entry'.1 ∨ entry'.1 <+: entry.1) : entry = entry' := by
  have hsymm : Std.Symm fun entry entry' : List Char × δ =>
      ¬entry.1 <+: entry'.1 ∧ ¬entry'.1 <+: entry.1 := ⟨fun _ _ h => ⟨h.2, h.1⟩⟩
  by_contra hne
  obtain ⟨hn, hn'⟩ := hk.prefixFree.forall he he' hne
  exact h.elim hn hn'

/-- The token of a drum begins with no blank. -/
theorem Distinct.skipBlanks_append (hk : Distinct tokens drums) {token : List Char}
    (he : (token, drum) ∈ drums) (rest : List Char) :
    skipBlanks (token ++ rest) = token ++ rest := by
  cases token with
  | nil => exact absurd rfl (hk.nonempty _ he)
  | cons c token =>
    exact skipBlanks_cons_of_not_blank (hk.own _ he c List.mem_cons_self).1 _

/-- What begins the token of a drum is no blank and in no other token. -/
theorem Distinct.own_of_mem_heads (hk : Distinct tokens drums) (he : (p, drum) ∈ ofTokens drums)
    {c : Char} (hc : c ∈ p.heads) : isBlank c = false ∧ tokens.Foreign c := by
  obtain ⟨token, hd, rfl⟩ := mem_ofTokens.1 he
  obtain ⟨spelling, hs, hhead⟩ := Pattern.mem_heads.1 hc
  rw [List.mem_singleton.1 hs] at hhead
  exact hk.own (token, drum) hd c (List.mem_of_mem_head? hhead)

theorem Distinct.plain (hk : Distinct tokens drums) (he : (p, drum) ∈ ofTokens drums) :
    p.Plain := by
  refine ⟨?_, ?_, ?_, fun c hc => ?_⟩
  · obtain ⟨token, -, rfl⟩ := mem_ofTokens.1 he
    rfl
  · obtain ⟨token, hd, rfl⟩ := mem_ofTokens.1 he
    intro t ht
    rw [List.mem_singleton.1 ht]
    exact hk.nonempty (token, drum) hd
  · obtain ⟨token, -, rfl⟩ := mem_ofTokens.1 he
    exact List.nodup_singleton _
  · obtain ⟨hb, hforeign⟩ := hk.own_of_mem_heads he hc
    exact ⟨hb, hforeign.1⟩

end Kit

/-! ## Writing -/

namespace Tokens

variable {tokens : Tokens} {kit : Kit δ}

/-- The text marks a stroke, or is empty where the stroke is not marked. -/
def Marked (tokens : Tokens) : Bool → List Char → Prop
  | true, text => (tokens.pattern .unscale).Spelt text
  | false, text => text = []

/-- The text writes a command. -/
inductive Written (tokens : Tokens) (kit : Kit δ) : Command δ → List Char → Prop
  | stroke {p : Pattern} {drum : δ} {unscaled : Bool} {t : LengthText} {a b c : List Char} :
    (p, drum) ∈ kit → p.Spelt a → tokens.Marked unscaled b → tokens.length.Written t c →
      Written tokens kit (.stroke drum unscaled t) (a ++ (b ++ c))
  | rest {t : LengthText} {a b : List Char} :
    tokens.rest.Spelt a → tokens.length.Written t b → Written tokens kit (.rest t) (a ++ b)
  | setLength {t : LengthText} {a b : List Char} :
    tokens.setLength.Spelt a → tokens.length.Written t b →
      Written tokens kit (.setLength t) (a ++ b)

/-- The text writes commands, with any characters between them that are neither digits nor in a
token. -/
def Score (tokens : Tokens) (kit : Kit δ) : List (Command δ) → List Char → Prop :=
  Scattered (tokens.Written kit) fun c => tokens.Foreign c ∧ kit.Lacks c

/-! ## What can be written -/

/-- A command that can be written: a stroke needs a drum of the kit, and it can be marked only where
there is a mark. -/
def Writable (tokens : Tokens) (kit : Kit δ) : Command δ → Prop
  | .stroke drum unscaled _ => (∃ p, (p, drum) ∈ kit) ∧ (unscaled = true → tokens.unscale.isSome)
  | .rest _ | .setLength _ => True

/-- Only where there is a mark can a stroke be marked. -/
theorem Marked.isSome {text : List Char} (h : tokens.Marked true text) : tokens.unscale.isSome := by
  obtain ⟨_, spelling, -, hs, -⟩ := h
  cases hm : tokens.unscale with
  | some m => rfl
  | none =>
    rw [pattern, hm] at hs
    cases hs

theorem Written.writable {command : Command δ} {text : List Char}
    (h : tokens.Written kit command text) : tokens.Writable kit command := by
  cases h with
  | stroke he _ hb _ =>
    refine ⟨⟨_, he⟩, fun hu => ?_⟩
    rw [hu] at hb
    exact hb.isSome
  | rest _ _ => trivial
  | setLength _ _ => trivial

variable {drums : List (List Char × δ)}

/-- Where every token has a spelling, so does every command that can be written. -/
theorem exists_written_iff
    (h : ∀ t, (t = .unscale → tokens.unscale.isSome) → (tokens.pattern t).spellings ≠ [])
    {command : Command δ} : (∃ text, tokens.Written (Kit.ofTokens drums) command text) ↔
      tokens.Writable (Kit.ofTokens drums) command := by
  refine ⟨fun ⟨text, hw⟩ => hw.writable, fun hw => ?_⟩
  have hlength : ∀ t, ∃ c, tokens.length.Written t c :=
    LengthTokens.exists_written fun t => h (.length t) nofun
  cases command with
  | stroke drum unscaled t =>
    obtain ⟨⟨p, he⟩, hu⟩ := hw
    obtain ⟨token, -, rfl⟩ := Kit.mem_ofTokens.1 he
    obtain ⟨a, ha⟩ := Pattern.exists_spelt (p := .literal token) (List.cons_ne_nil token [])
    obtain ⟨c, hc⟩ := hlength t
    cases unscaled with
    | false => exact ⟨a ++ ([] ++ c), .stroke he ha rfl hc⟩
    | true =>
      obtain ⟨b, hb⟩ := Pattern.exists_spelt (h .unscale fun _ => hu rfl)
      exact ⟨a ++ (b ++ c), .stroke he ha hb hc⟩
  | rest t =>
    obtain ⟨a, ha⟩ := Pattern.exists_spelt (h .rest nofun)
    obtain ⟨b, hb⟩ := hlength t
    exact ⟨a ++ b, .rest ha hb⟩
  | setLength t =>
    obtain ⟨a, ha⟩ := Pattern.exists_spelt (h .setLength nofun)
    obtain ⟨b, hb⟩ := hlength t
    exact ⟨a ++ b, .setLength ha hb⟩

/-- Commands can be written as a piece if each of them can be written, and only then. -/
theorem exists_score_iff
    (h : ∀ t, (t = .unscale → tokens.unscale.isSome) → (tokens.pattern t).spellings ≠ [])
    {commands : List (Command δ)} : (∃ text, tokens.Score (Kit.ofTokens drums) commands text) ↔
      ∀ command ∈ commands, tokens.Writable (Kit.ofTokens drums) command := by
  rw [Score, exists_scattered_iff]
  exact forall₂_congr fun _ _ => exists_written_iff h

/-! ## What comes next -/

/-- A character that could go on with a command after its first token. -/
def Continues (tokens : Tokens) (c : Char) : Prop :=
  tokens.length.Continues c ∨ c ∈ (tokens.pattern .unscale).heads

theorem not_mem_heads_of_foreign {c : Char} (h : tokens.Foreign c) (t : Token) :
    c ∉ (tokens.pattern t).heads := Pattern.not_mem_heads (h.2 t)

theorem not_continues_of_foreign {c : Char} (h : tokens.Foreign c) : ¬tokens.Continues c := by
  rintro ((hd | ⟨t, ht⟩) | hm)
  · rw [h.1] at hd
    cases hd
  · exact not_mem_heads_of_foreign h (.length t) ht
  · exact not_mem_heads_of_foreign h .unscale hm

/-- What does not go on with a command does not go on with its length. -/
theorem next_length {rest : List Char} (h : Next (fun c => ¬tokens.Continues c) rest) :
    Next (fun c => ¬tokens.length.Continues c) rest :=
  h.mono fun _ hc hl => hc (.inl hl)

section

variable (ha : Apart tokens.pattern)

include ha

/-- The tokens of lengths are apart from each other. -/
theorem apart_length : Apart tokens.length.pattern :=
  Apart.comp ha fun t t' (h : Token.length t = .length t') => by
    cases h
    rfl

/-- A token that is neither a mark nor in a length text goes on with no command. -/
theorem not_continues_of_mem_heads {t : Token} (hu : t ≠ .unscale) (hl : ∀ l, t ≠ .length l)
    {c : Char} (hc : c ∈ (tokens.pattern t).heads) : ¬tokens.Continues c := by
  rintro ((hd | ⟨l, ht⟩) | hm)
  · rw [((ha.plain t).visible c hc).2] at hd
    cases hd
  · exact hl l (ha.apart _ (.length l) c hc ht)
  · exact hu (ha.apart _ .unscale c hc hm)

/-- A command goes on with no other. -/
theorem Written.next (hk : Kit.Distinct tokens drums) {command : Command δ} {text : List Char}
    (h : tokens.Written (Kit.ofTokens drums) command text) (more : List Char) :
    Next (fun c => ¬tokens.Continues c) (text ++ more) := by
  cases h with
  | stroke he hs _ _ =>
    rw [List.append_assoc]
    exact hs.next (hk.plain he)
      (fun c hc => not_continues_of_foreign (hk.own_of_mem_heads he hc).2) _
  | rest hs _ =>
    rw [List.append_assoc]
    exact hs.next (ha.plain .rest)
      (fun c => not_continues_of_mem_heads ha (t := .rest) nofun nofun) _
  | setLength hs _ =>
    rw [List.append_assoc]
    exact hs.next (ha.plain .setLength)
      (fun c => not_continues_of_mem_heads ha (t := .setLength) nofun nofun) _

end

end Tokens

end Percussion

/-! ## The dialects -/

theorem Dialect.spellings_percussion (d : Dialect) (t : Percussion.Token) :
    (t = .unscale → d.percussion.unscale.isSome) → (d.percussion.pattern t).spellings ≠ [] := by
  revert t
  cases d <;> decide

instance Percussion.decidableApart (pattern : Percussion.Token → Pattern) :
    Decidable (Apart pattern) :=
  decidable_of_iff _ apart_iff.symm

theorem Dialect.apart_percussion (d : Dialect) : Apart d.percussion.pattern := by
  cases d <;> decide +kernel

end MusicMacro
