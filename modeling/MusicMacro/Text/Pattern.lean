import MusicMacro.Text.Blank
import MusicMacro.Text.Scan

/-!
# Tokens

A `Pattern` is how a token of a dialect is spelt: one spelling, several of them, or whatever a
`Matcher` finds, such as a regular expression. A pattern never accepts the empty text, so that
reading a token makes progress.

* `Matcher` — what a regular expression has to be like, and nothing more.
* `Pattern.append_of_match` — what is matched and what is left make up the text.
* `Pattern.match_literal_iff` — the only text that a literal accepts is itself.
* `Pattern.read_progresses` — reading a token, blanks in front included, shortens the text.
-/

namespace MusicMacro

/-- A way to search a text, of which nothing is asked but that what it finds is a span of the text
it searches. -/
structure Matcher where
  /-- Where the match begins and where it ends. -/
  find? : List Char → Option (Nat × Nat)
  span {cs : List Char} {start stop : Nat} :
    find? cs = some (start, stop) → start ≤ stop ∧ stop ≤ cs.length

namespace Matcher

/-- The length of a match at the head of a text. A match that begins further on does not count. -/
def headLength? (m : Matcher) (cs : List Char) : Option Nat :=
  match m.find? cs with
  | some (0, stop) => some stop
  | _ => none

theorem headLength?_eq_some_iff {m : Matcher} {cs : List Char} {n : Nat} :
    m.headLength? cs = some n ↔ m.find? cs = some (0, n) := by
  unfold headLength?
  split
  · next h => simp [h]
  · next h =>
    simp only [reduceCtorEq, false_iff]
    exact h n

end Matcher

/-- The spellings of a token. -/
inductive Pattern
  /-- One spelling. -/
  | literal (token : List Char)
  /-- Several spellings; the first that fits counts. -/
  | anyOf (tokens : List (List Char))
  /-- A regular expression, matched at the head. -/
  | regex (m : Matcher)

namespace Pattern

/-- Why a pattern does not accept the head of a text. -/
inductive Mismatch
  /-- No spelling stands there. -/
  | token
  /-- The regular expression does not match. -/
  | expression
  /-- Only the empty text matches. -/
  | emptyMatch
deriving DecidableEq, Repr

/-- The length of what the pattern finds at the head of a text; the empty text counts. -/
def headLength? (p : Pattern) (cs : List Char) : Option Nat :=
  match p with
  | literal t => if t.isPrefixOf cs then some t.length else none
  | anyOf ts => (ts.find? (·.isPrefixOf cs)).map List.length
  | regex m => m.headLength? cs

/-- The reason when a pattern finds nothing. -/
def mismatch : Pattern → Mismatch
  | literal _ | anyOf _ => .token
  | regex _ => .expression

/-- Splits a text after what the pattern accepts at its head. -/
def match? (p : Pattern) (cs : List Char) : Except Mismatch (List Char × List Char) :=
  match p.headLength? cs with
  | none => .error p.mismatch
  | some n => if (cs.take n).isEmpty then .error .emptyMatch else .ok (cs.take n, cs.drop n)

theorem match_eq_ok_iff {p : Pattern} {cs m rest : List Char} :
    p.match? cs = .ok (m, rest) ↔
      ∃ n, p.headLength? cs = some n ∧ cs.take n = m ∧ cs.drop n = rest ∧ m ≠ [] := by
  unfold match?
  split
  · next h => simp [h]
  · next n h =>
    split
    · next he => simp [h]; rintro rfl - ; simpa using he
    · next he =>
      simp only [Except.ok.injEq, Prod.mk.injEq, h, Option.some.injEq, exists_eq_left']
      constructor
      · rintro ⟨rfl, rfl⟩; exact ⟨rfl, rfl, by simpa using he⟩
      · rintro ⟨hm, hr, -⟩; exact ⟨hm, hr⟩

theorem append_of_match {p : Pattern} {cs m rest : List Char} (h : p.match? cs = .ok (m, rest)) :
    m ++ rest = cs := by
  obtain ⟨n, -, rfl, rfl, -⟩ := match_eq_ok_iff.1 h
  exact List.take_append_drop ..

theorem ne_nil_of_match {p : Pattern} {cs m rest : List Char} (h : p.match? cs = .ok (m, rest)) :
    m ≠ [] := by
  obtain ⟨_, -, -, -, hm⟩ := match_eq_ok_iff.1 h
  exact hm

theorem match_literal_iff {t cs m rest : List Char} :
    (literal t).match? cs = .ok (m, rest) ↔ m = t ∧ t ≠ [] ∧ cs = t ++ rest := by
  rw [match_eq_ok_iff]
  constructor
  · rintro ⟨n, h, rfl, rfl, hm⟩
    simp only [headLength?, Option.ite_none_right_eq_some, List.isPrefixOf_iff_prefix] at h
    obtain ⟨⟨suffix, rfl⟩, ⟨⟩⟩ := h
    exact ⟨by simp, by simpa using hm, by simp⟩
  · rintro ⟨rfl, hm, rfl⟩
    exact ⟨m.length, by simp [headLength?], by simp, by simp, hm⟩

/-- Reads a token; blanks may stand in front of it. -/
def read (p : Pattern) : Scanner (List Char) :=
  fun cs => (p.match? (skipBlanks cs)).toOption

theorem read_eq_some_iff {p : Pattern} {cs m rest : List Char} :
    p.read cs = some (m, rest) ↔ p.match? (skipBlanks cs) = .ok (m, rest) := by
  unfold read
  cases p.match? (skipBlanks cs) <;> simp [Except.toOption]

theorem read_progresses (p : Pattern) : Scanner.Progresses p.read := by
  intro cs m rest h
  have h := read_eq_some_iff.1 h
  have hlen := congrArg List.length (append_of_match h)
  have hpos := List.length_pos_iff.2 (ne_nil_of_match h)
  have hskip := length_skipBlanks_le cs
  simp only [List.length_append] at hlen
  omega

end Pattern

/-! ## Numbers -/

/-- Reads ASCII digits, as many as there are and at least one; blanks may stand in front. -/
def readDigits : Scanner (List Char) := fun cs =>
  let cs := skipBlanks cs
  let digits := cs.takeWhile Char.isDigit
  if digits.isEmpty then none else some (digits, cs.dropWhile Char.isDigit)

theorem readDigits_eq_some_iff {cs digits rest : List Char} :
    readDigits cs = some (digits, rest) ↔
      digits ≠ [] ∧ digits = (skipBlanks cs).takeWhile Char.isDigit ∧
        rest = (skipBlanks cs).dropWhile Char.isDigit := by
  simp only [readDigits]
  split
  · next h => simp only [reduceCtorEq, false_iff]; rintro ⟨hd, rfl, -⟩; simp_all
  · next h =>
    simp only [Option.some.injEq, Prod.mk.injEq]
    constructor
    · rintro ⟨rfl, rfl⟩; exact ⟨by simpa using h, rfl, rfl⟩
    · rintro ⟨-, rfl, rfl⟩; exact ⟨rfl, rfl⟩

theorem readDigits_progresses : Scanner.Progresses readDigits := by
  intro cs digits rest h
  obtain ⟨hd, rfl, rfl⟩ := readDigits_eq_some_iff.1 h
  have hlen := congrArg List.length
    (List.takeWhile_append_dropWhile (p := Char.isDigit) (l := skipBlanks cs))
  have hpos := List.length_pos_iff.2 hd
  have hskip := length_skipBlanks_le cs
  simp only [List.length_append] at hlen
  omega

end MusicMacro
