import MusicMacro.Text.Blank
import MusicMacro.Text.Digit

/-!
# Sets of characters

What a class of a regular expression contains: ranges, the digits and the blanks, sets with a name,
and what the operations on sets make of them.

* `CharSet.contains` — membership; each operation on sets is one on truth values.
* `CharSet.named?` — the sets that have a name.
* `CharSet.ranges` — the members as ranges of code points.
-/

namespace MusicMacro

/-- A set of characters. -/
inductive CharSet
  /-- No character. -/
  | empty
  /-- Every character between two characters, both included. -/
  | range (low high : Char)
  /-- The decimal digits of every script. -/
  | digit
  /-- The blanks. -/
  | blank
  /-- What another set does not contain. -/
  | complement (s : CharSet)
  /-- What at least one of two sets contains. -/
  | union (s t : CharSet)
  /-- What both of two sets contain. -/
  | inter (s t : CharSet)
  /-- What the first set contains and the second does not. -/
  | diff (s t : CharSet)
  /-- What exactly one of two sets contains. -/
  | symmDiff (s t : CharSet)
  /-- What another set contains in some letter case. -/
  | anyCase (s : CharSet)
deriving Repr

namespace CharSet

/-- The set with one member. -/
def single (c : Char) : CharSet := .range c c

/-- Every character that does not end a line. -/
def line : CharSet := .complement (single '\n')

/-- The letters that have a case here: those of ASCII, and the long s and the Kelvin sign, which
are third forms of `s` and `k`. -/
def caseLetters : List (Nat × Nat) := [(0x41, 0x5a), (0x61, 0x7a), (0x17f, 0x17f), (0x212a, 0x212a)]

/-- The characters that differ from `c` in letter case only. -/
def otherCases (c : Char) : List Char :=
  match c with
  | 'k' => ['K', '\u212a']
  | 'K' => ['k', '\u212a']
  | '\u212a' => ['k', 'K']
  | 's' => ['S', '\u017f']
  | 'S' => ['s', '\u017f']
  | '\u017f' => ['s', 'S']
  | c => if c.isLower then [c.toUpper] else if c.isUpper then [c.toLower] else []

/-- Membership. -/
def contains : CharSet → Char → Bool
  | .empty, _ => false
  | .range low high, c => low ≤ c && c ≤ high
  | .digit, c => isDecimalDigit c
  | .blank, c => isBlank c
  | .complement s, c => !s.contains c
  | .union s t, c => s.contains c || t.contains c
  | .inter s t, c => s.contains c && t.contains c
  | .diff s t, c => s.contains c && !t.contains c
  | .symmDiff s t, c => s.contains c != t.contains c
  | .anyCase s, c => s.contains c || (otherCases c).any s.contains

/-! ## Sets with a name -/

/-- The union of ranges. -/
def ofRanges (rs : List (Char × Char)) : CharSet :=
  rs.foldr (fun (low, high) s => .union (.range low high) s) .empty

/-- The set of ASCII characters with a name. -/
def named? (name : List Char) : Option CharSet :=
  match String.ofList name with
  | "alnum" => some (ofRanges [('0', '9'), ('A', 'Z'), ('a', 'z')])
  | "alpha" => some (ofRanges [('A', 'Z'), ('a', 'z')])
  | "ascii" => some (ofRanges [('\x00', '\x7f')])
  | "blank" => some (ofRanges [('\t', '\t'), (' ', ' ')])
  | "cntrl" => some (ofRanges [('\x00', '\x1f'), ('\x7f', '\x7f')])
  | "digit" => some (ofRanges [('0', '9')])
  | "graph" => some (ofRanges [('!', '~')])
  | "lower" => some (ofRanges [('a', 'z')])
  | "print" => some (ofRanges [(' ', '~')])
  | "punct" => some (ofRanges [('!', '/'), (':', '@'), ('[', '\x60'), ('\x7b', '~')])
  | "space" => some (ofRanges [('\t', '\r'), (' ', ' ')])
  | "upper" => some (ofRanges [('A', 'Z')])
  | "word" => some (ofRanges [('0', '9'), ('A', 'Z'), ('_', '_'), ('a', 'z')])
  | "xdigit" => some (ofRanges [('0', '9'), ('A', 'F'), ('a', 'f')])
  | _ => none

/-! ## Ranges of code points -/

/-- The code points at which membership may differ from that of the code point before, in front of
others. Every letter with a case is a range of its own where cases do not matter. -/
def bordersOnto : CharSet → List Nat → List Nat
  | .empty, rest => rest
  | .range low high, rest => low.toNat :: (high.toNat + 1) :: rest
  | .digit, rest => (decimalRuns.flatMap fun n => [n, n + 10]) ++ rest
  | .blank, rest => (blankRanges.flatMap fun (low, high) => [low, high + 1]) ++ rest
  | .complement s, rest => s.bordersOnto rest
  | .union s t, rest | .inter s t, rest | .diff s t, rest | .symmDiff s t, rest =>
    s.bordersOnto (t.bordersOnto rest)
  | .anyCase s, rest =>
    (caseLetters.flatMap fun (low, high) => List.range' low (high + 2 - low)) ++ s.bordersOnto rest

/-- The code points between borders, with the code points that no character has left out. -/
def segments : List Nat → List (Nat × Nat)
  | low :: high :: rest =>
    if low < high ∧ low.isValidChar then (low, high - 1) :: segments (high :: rest)
    else segments (high :: rest)
  | _ => []

/-- Joins ranges that adjoin. -/
def joined : List (Nat × Nat) → List (Nat × Nat)
  | (a, b) :: rest =>
    match joined rest with
    | (c, d) :: rest => if b + 1 = c then (a, d) :: rest else (a, b) :: (c, d) :: rest
    | [] => [(a, b)]
  | [] => []

/-- The members as ranges of code points, in order. -/
def ranges (s : CharSet) : List (Nat × Nat) :=
  let all := s.bordersOnto [0, 0xd800, 0xe000, 0x110000]
  joined ((segments (all.mergeSort Nat.ble)).filter fun (low, _) => s.contains (Char.ofNat low))

/-- Sets are the same if they have the same members. -/
instance instBEq : BEq CharSet := ⟨fun s t => s.ranges == t.ranges⟩

end CharSet

end MusicMacro
