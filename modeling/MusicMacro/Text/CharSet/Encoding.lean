import MusicMacro.Text.CharSet

/-!
# Encoded sets of characters

The UTF-8 encodings of the characters of a set, as sequences of byte ranges: a text is the encoding
of a member if its bytes lie in the ranges of one of the sequences. There are as few sequences as
can be.

* `CharSet.byteSequences` — the sequences of a set.
* `ByteTree.ofSequences` — sequences as a tree, in which neighbours share their beginning.
-/

namespace MusicMacro

/-- Bytes between two bytes, both included. -/
abbrev ByteRange := Nat × Nat

namespace CharSet

/-- The sequences for the code points from `low` to `high`, all of which have an encoding of
`digits + 1` bytes. A byte behind the first one is a digit in base 64 behind the marker 0x80; the
first byte has a marker of its own. Code points that agree in the first digit share the range of
their first byte; otherwise what does not fill up its first digit is split off at either end. -/
def sequencesFrom (marker : Nat) : (digits : Nat) → (low high : Nat) → List (List ByteRange)
  | 0, low, high => [[(marker + low, marker + high)]]
  | digits + 1, low, high =>
    let unit := Nat.pow 64 (digits + 1)
    let first := low / unit
    let last := high / unit
    let within (digit low high : Nat) : List (List ByteRange) :=
      (sequencesFrom 0x80 digits (low - digit * unit) (high - digit * unit)).map
        ((marker + digit, marker + digit) :: ·)
    if first = last then within first low high
    else
      let splitsLow := low ≠ first * unit
      let splitsHigh := high + 1 ≠ (last + 1) * unit
      let start := if splitsLow then first + 1 else first
      let stop := if splitsHigh then last else last + 1
      (if splitsLow then within first low ((first + 1) * unit - 1) else []) ++
        (if start < stop then
          [(marker + start, marker + (stop - 1)) :: List.replicate (digits + 1) (0x80, 0xbf)]
        else []) ++
        (if splitsHigh then within last (last * unit) high else [])

/-- The kinds of encodings: the marker of the first byte, the number of bytes behind it, and the
code points from the least to the greatest. -/
def encodings : List (Nat × Nat × Nat × Nat) :=
  [(0, 0, 0, 0x7f), (0xc0, 1, 0x80, 0x7ff), (0xe0, 2, 0x800, 0xffff), (0xf0, 3, 0x10000, 0x10ffff)]

/-- The sequences of byte ranges of a set, in order. -/
def byteSequences (s : CharSet) : List (List ByteRange) :=
  s.ranges.flatMap fun (low, high) =>
    encodings.flatMap fun (marker, digits, least, greatest) =>
      let low := max low least
      let high := min high greatest
      if low ≤ high then sequencesFrom marker digits low high else []

end CharSet

/-! ## Trees -/

/-- Sequences of byte ranges by their first ranges, in order. -/
inductive ByteTree
  /-- No sequence. -/
  | nil
  /-- The sequences that begin with a range, by what is below it, and those beside them. A range
  with nothing below it ends a sequence. -/
  | branch (bytes : ByteRange) (below beside : ByteTree)
deriving Repr

namespace ByteTree

/-- Puts a sequence in front. It shares what it has in common with the sequence that was in front
before. -/
def push : List ByteRange → ByteTree → ByteTree
  | [], t => t
  | bytes :: rest, nil => branch bytes (push rest nil) nil
  | bytes :: rest, branch bytes' below beside =>
    if bytes = bytes' then branch bytes (push rest below) beside
    else branch bytes (push rest nil) (branch bytes' below beside)

/-- The tree of sequences. -/
def ofSequences (qs : List (List ByteRange)) : ByteTree := qs.foldr push nil

end ByteTree

end MusicMacro
