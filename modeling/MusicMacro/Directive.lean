import MusicMacro.Text.Digit
import MusicMacro.Text.Pattern

/-!
# Directives

A fragment may begin with directives: `t120` sets the tempo, `@1` chooses an instrument, `@drum`
makes the fragment percussion. Letter case does not matter, and blanks may stand in front of each.
Further on the same characters are no directives.

* `Directive.read_progresses` — reading a directive shortens the text.
-/

namespace MusicMacro

/-- What a fragment may begin with. -/
inductive Directive
  /-- A tempo below 2^32. Zero is no tempo; it stands for numbers out of range, too. -/
  | tempo (t : Nat)
  /-- The index of an instrument, below 2^64. The greatest stands for numbers out of range, too. -/
  | instrument (index : Nat)
  /-- The fragment is percussion. -/
  | percussion
deriving DecidableEq, Repr

namespace Directive

/-- The greatest tempo, 2^32 - 1. -/
def greatestTempo : Nat := 0xffffffff

/-- The greatest index of an instrument, 2^64 - 1. -/
def greatestIndex : Nat := 0xffffffffffffffff

/-- The tempo that digits write. -/
def tempoOfDigits (digits : List Char) : Directive :=
  .tempo (if digitsValue digits ≤ greatestTempo then digitsValue digits else 0)

/-- The instrument that digits write. -/
def instrumentOfDigits (digits : List Char) : Directive :=
  .instrument (min (digitsValue digits) greatestIndex)

/-- Drops a word from the head of a text, whatever the letter case. The word is in lower case. -/
def dropWord? : List Char → List Char → Option (List Char)
  | [], cs => some cs
  | _ :: _, [] => none
  | w :: word, c :: cs => if c.toLower = w then dropWord? word cs else none

/-- Splits the digits at the head of a text from the rest; there must be one. -/
def splitDigits? (cs : List Char) : Option (List Char × List Char) :=
  let digits := cs.takeWhile Char.isDigit
  if digits.isEmpty then none else some (digits, cs.dropWhile Char.isDigit)

/-- Reads a directive. The word of percussion is tried first. -/
def read : Scanner Directive := fun cs =>
  let cs := skipBlanks cs
  Scanner.firstOf [
    fun cs => (dropWord? ['@', 'd', 'r', 'u', 'm'] cs).map (percussion, ·),
    fun cs => do
      let (digits, rest) ← splitDigits? (← dropWord? ['t'] cs)
      return (tempoOfDigits digits, rest),
    fun cs => do
      let (digits, rest) ← splitDigits? (← dropWord? ['@'] cs)
      return (instrumentOfDigits digits, rest)] cs

theorem length_of_dropWord? {word cs rest : List Char} (h : dropWord? word cs = some rest) :
    cs.length = word.length + rest.length := by
  fun_induction dropWord? word cs with
  | case1 => cases h; simp
  | case2 => cases h
  | case3 _ _ _ ih => simp [ih h]; omega
  | case4 => cases h

theorem length_of_splitDigits? {cs digits rest : List Char}
    (h : splitDigits? cs = some (digits, rest)) : rest.length < cs.length := by
  simp only [splitDigits?] at h
  split at h
  · cases h
  · next hd =>
    cases h
    have hlen := congrArg List.length
      (List.takeWhile_append_dropWhile (p := Char.isDigit) (l := cs))
    have hpos : 0 < (cs.takeWhile Char.isDigit).length :=
      List.length_pos_iff.2 (by simpa using hd)
    simp only [List.length_append] at hlen
    omega

theorem read_progresses : Scanner.Progresses read := by
  intro cs d rest h
  refine Nat.lt_of_lt_of_le ?_ (length_skipBlanks_le cs)
  refine Scanner.Progresses.firstOf ?_ _ _ _ h
  simp only [List.mem_cons, List.not_mem_nil, or_false, forall_eq_or_imp, forall_eq]
  refine ⟨?_, ?_, ?_⟩ <;> intro cs d rest h
  · obtain ⟨_, hw, eq⟩ := Option.map_eq_some_iff.1 h
    cases eq
    have := length_of_dropWord? hw
    simp only [List.length_cons] at this
    omega
  · simp only [bind, Option.bind_eq_some_iff] at h
    obtain ⟨_, hw, _, hs, eq⟩ := h
    cases eq
    have := length_of_dropWord? hw
    have := length_of_splitDigits? hs
    omega
  · simp only [bind, Option.bind_eq_some_iff] at h
    obtain ⟨_, hw, _, hs, eq⟩ := h
    cases eq
    have := length_of_dropWord? hw
    have := length_of_splitDigits? hs
    omega

/-- Splits a fragment into its directives and the music after them. -/
def strip (cs : List Char) : List Directive × List Char := Scanner.many read read_progresses cs

end Directive

end MusicMacro
