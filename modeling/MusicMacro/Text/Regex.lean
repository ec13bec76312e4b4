import MusicMacro.Text.CharSet

/-!
# Regular expressions

Regular expressions over characters, with preferences: where several matches are possible the first
in order of preference counts, the left alternative before the right one, and one more repetition
before one fewer unless the repetition is lazy.

Expressions have a normal form, and it decides on preferences, as `.*a|.*b` becomes `.*[ab]`.
Sequences and alternatives are lists without lists in them; the empty text disappears from
sequences, and literals that adjoin are joined; a set with one member is a literal; alternatives
that are characters or sets become one set, and what all alternatives begin with is written once in
front of them; what matches the empty text only is not repeated.

* `Regex.shortest?` and `Regex.longest?` — how long the matches of an expression can be.
* `Regex.ofSet`, `Regex.sequence`, `Regex.firstOf` and `Regex.times` — building expressions in
  normal form.
-/

namespace MusicMacro

/-- A regular expression. -/
inductive Regex
  /-- The empty text. -/
  | empty
  /-- A text of at least one character. -/
  | literal (cs : List Char)
  /-- One character of a set. -/
  | one (s : CharSet)
  /-- The place at the start of the text. -/
  | atStart
  /-- The place at the end of the text. -/
  | atEnd
  /-- The first expression and then the second. -/
  | append (r s : Regex)
  /-- The first expression or else the second. -/
  | either (r s : Regex)
  /-- The expression at least `least` times, and at most `most` times where there is a bound; as
  often as possible if `greedy`. -/
  | repeated (greedy : Bool) (least : Nat) (most : Option Nat) (r : Regex)
  /-- The expression as a group that is remembered; it matches the same texts. Groups differ by
  their place in the notation. -/
  | capture (place : Nat) (r : Regex)
deriving BEq, Repr

namespace Regex

/-! ## Lengths of matches -/

/-- The least number of characters that a match can have, if all parts can match. -/
def shortest? : Regex → Option Nat
  | empty | atStart | atEnd => some 0
  | literal cs => some cs.length
  | one s => if s.ranges.isEmpty then none else some 1
  | append r s => do return (← s.shortest?) + (← r.shortest?)
  | either r s => do return min (← s.shortest?) (← r.shortest?)
  | repeated _ least _ r => do return least * (← r.shortest?)
  | capture _ r => r.shortest?

/-- The greatest number of characters that a match can have, if there is a bound and all parts can
match. -/
def longest? : Regex → Option Nat
  | empty | atStart | atEnd => some 0
  | literal cs => some cs.length
  | one s => if s.ranges.isEmpty then none else some 1
  | append r s => do return (← s.longest?) + (← r.longest?)
  | either r s => do return max (← s.longest?) (← r.longest?)
  | repeated _ _ most r => do return (← most) * (← r.longest?)
  | capture _ r => r.longest?

/-- Nothing says that the expression does not match the empty text. -/
def mayBeEmpty (r : Regex) : Bool := r.shortest?.getD 0 = 0

/-- The expression matches nothing but the empty text. -/
def isIdle (r : Regex) : Bool := r.longest? = some 0

/-! ## Sets and repetitions -/

/-- One character of a set. -/
def ofSet (s : CharSet) : Regex :=
  match s.ranges with
  | [(low, high)] => if low = high then literal [Char.ofNat low] else one s
  | _ => one s

/-- The expression a number of times. -/
def times (greedy : Bool) (least : Nat) (most : Option Nat) (r : Regex) : Regex :=
  let (least, most) := if r.isIdle then (min least 1, some (min (most.getD 1) 1)) else (least, most)
  if most = some 0 then empty
  else if least = 1 ∧ most = some 1 then r
  else repeated greedy least most r

/-! ## Sequences -/

/-- The parts of a sequence in front of others. -/
def factorsOnto : Regex → List Regex → List Regex
  | empty, rest => rest
  | append r s, rest => r.factorsOnto (s.factorsOnto rest)
  | r, rest => r :: rest

/-- The parts of a sequence; of another expression, itself. -/
def factors (r : Regex) : List Regex := r.factorsOnto []

/-- A part in front of others; literals that adjoin are joined. -/
def joinFactor : Regex → List Regex → List Regex
  | literal cs, literal ds :: rest => literal (cs ++ ds) :: rest
  | r, rest => r :: rest

/-- One expression after another. -/
def sequence (rs : List Regex) : Regex :=
  match (rs.flatMap factors).foldr joinFactor [] with
  | [] => empty
  | r :: rest => rest.foldl append r

/-! ## Alternatives -/

/-- The alternatives of an expression in front of others. -/
def alternativesOnto : Regex → List Regex → List Regex
  | either r s, rest => r.alternativesOnto (s.alternativesOnto rest)
  | r, rest => r :: rest

/-- The alternatives of an expression; of an expression without alternatives, itself. -/
def alternatives (r : Regex) : List Regex := r.alternativesOnto []

/-- The set of a literal that is a single character. -/
def character? : Regex → Option CharSet
  | literal [c] => some (.single c)
  | _ => none

/-- The set of an expression that is one character of a set. -/
def set? : Regex → Option CharSet
  | one s => some s
  | _ => none

/-- Alternatives that are all characters, or all sets, as one set. -/
def commonSet? (rs : List Regex) : Option CharSet :=
  (rs.mapM character? <|> rs.mapM set?).map (·.foldl (fun s t => .union t s) .empty)

/-- The first of several alternatives that matches. -/
def choice (rs : List Regex) : Regex :=
  match rs with
  | [] => one .empty
  | [r] => r
  | r :: rest => (commonSet? rs).elim (rest.foldl either r) ofSet

/-- What a sequence can share with other sequences: its parts. -/
def shareable : Regex → List Regex
  | append r s => (append r s).factors
  | _ => []

/-- What two lists of parts have in common at their beginning. -/
def common : List Regex → List Regex → List Regex
  | r :: rs, s :: ss => if r == s then r :: common rs ss else []
  | _, _ => []

/-- What all alternatives begin with. -/
def sharedBeginning : List Regex → List Regex
  | [] => []
  | r :: rest => rest.foldl (fun shared s => common shared s.shareable) r.shareable

/-- The first of several expressions that matches. -/
def firstOf (rs : List Regex) : Regex :=
  let rs := rs.flatMap alternatives
  match sharedBeginning rs with
  | [] => choice rs
  | shared =>
    let rests := rs.map fun r => sequence (r.factors.drop shared.length)
    sequence (shared ++ [choice (rests.flatMap alternatives)])

end Regex

end MusicMacro
