import MusicMacro.Text.Pattern
import MusicMacro.Text.Regex.Program
import MusicMacro.Text.Regex.Weight

/-!
# The notation of regular expressions

The usual notation: literals, `.`, `^`, `$`, classes with set operations, `\d`, `\s`, escapes,
groups, alternatives, greedy and lazy repetitions, and `(?i)` for either letter case. A notation
is refused if it is ill formed, nested too deeply, or if its expression is too heavy.

A part of a notation is a level of nesting if it is a group, a class, a repetition, an operation, or
made of several parts.

* `Regex.parse?` — the expression of a notation.
* `Regex.Program.anchored?` — the program of a notation, which is read between `^(?:` and `)` so
  that it matches at the head of a text only. The anchor is part of the notation that is read:
  `a)|(b` is well formed there.
* `Regex.matcher?` — a notation, so anchored, as a way to search a text.
-/

namespace MusicMacro.Regex

/-- What has been read, and how many levels its notation has. -/
structure Nested (α : Type) where
  value : α
  depth : Nat
deriving Repr

/-- The greatest number of levels. -/
def greatestDepth : Nat := 250

/-- The level that a number of parts makes. -/
def levels (count : Nat) : Nat := if count < 2 then 0 else 1

/-! ## Escapes -/

/-- What stands after a backslash: a set, or a character that stands for itself. -/
def escape? (c : Char) : Option (CharSet ⊕ Char) :=
  match c with
  | 'd' => some (.inl .digit)
  | 'D' => some (.inl (.complement .digit))
  | 's' => some (.inl .blank)
  | 'S' => some (.inl (.complement .blank))
  | 'a' => some (.inr '\x07')
  | 'f' => some (.inr '\x0c')
  | 'n' => some (.inr '\n')
  | 'r' => some (.inr '\r')
  | 't' => some (.inr '\t')
  | 'v' => some (.inr '\x0b')
  | c => if c.toNat < 128 && !c.isAlphanum && c != '<' && c != '>' then some (.inr c) else none

/-- A set, in either letter case where cases do not matter. -/
def folded (ignoreCase : Bool) (s : CharSet) : CharSet := if ignoreCase then .anyCase s else s

/-- The complement of a set, or the set. -/
def complementIf (negated : Bool) (s : CharSet) : CharSet := if negated then .complement s else s

/-! ## Classes -/

/-- An operation on sets. -/
inductive SetOperation
  | inter
  | diff
  | symmDiff
deriving DecidableEq, Repr

/-- The result of an operation. -/
def SetOperation.apply : SetOperation → CharSet → CharSet → CharSet
  | inter => .inter
  | diff => .diff
  | symmDiff => .symmDiff

/-- What has been read of a class: the operation that was read last with its left operand, the
items behind it, and their number. -/
structure ClassPart where
  left : Option (SetOperation × Nested CharSet)
  items : Nested CharSet
  count : Nat

namespace ClassPart

/-- A class, or an operand, of which nothing has been read. -/
def start (left : Option (SetOperation × Nested CharSet)) : ClassPart := ⟨left, ⟨.empty, 0⟩, 0⟩

/-- Adds an item. -/
def add (p : ClassPart) (item : Nested CharSet) : ClassPart :=
  { p with
    items := ⟨.union item.value p.items.value, max item.depth p.items.depth⟩
    count := p.count + 1 }

/-- What has been read. Operations are done from left to right. -/
def close (p : ClassPart) : Nested CharSet :=
  let right : Nested CharSet := ⟨p.items.value, p.items.depth + levels p.count⟩
  match p.left with
  | none => right
  | some (op, left) => ⟨op.apply left.value right.value, max left.depth right.depth + 1⟩

/-- Reads an operation. -/
def operate (p : ClassPart) (op : SetOperation) : ClassPart := start (some (op, p.close))

end ClassPart

/-- One item of a class that is no class itself. -/
def classItem? : List Char → Option ((CharSet ⊕ Char) × List Char)
  | [] => none
  | '\\' :: c :: rest => (escape? c).map (·, rest)
  | '\\' :: [] => none
  | c :: rest => some (.inr c, rest)

/-- An item, or a range between two characters. A hyphen before the end of the class or before
another hyphen makes no range. -/
def classRange? (ignoreCase : Bool) (cs : List Char) : Option (CharSet × List Char) := do
  let (low, rest) ← classItem? cs
  let item : CharSet := match low with
    | .inl s => s
    | .inr c => folded ignoreCase (.single c)
  match rest with
  | '-' :: ']' :: _ | '-' :: '-' :: _ => return (item, rest)
  | '-' :: rest =>
    let (high, rest) ← classItem? rest
    match low, high with
    | .inr low, .inr high =>
      if low ≤ high then return (folded ignoreCase (.range low high), rest) else none
    | _, _ => none
  | rest => return (item, rest)

/-- A caret, which negates what follows. -/
def negation : List Char → Bool × List Char
  | '^' :: rest => (true, rest)
  | rest => (false, rest)

/-- The name of a set between colons and closed by a bracket, after the opening bracket. -/
def namedSet? (ignoreCase : Bool) (cs : List Char) : Option (CharSet × List Char) :=
  match cs with
  | ':' :: rest =>
    let (negated, rest) := negation rest
    match rest.dropWhile (· != ':') with
    | ':' :: ']' :: rest' => do
      let s ← CharSet.named? (rest.takeWhile (· != ':'))
      return (complementIf negated (folded ignoreCase s), rest')
    | _ => none
  | _ => none

/-- The start of a class. Hyphens that stand first are members, and so is a closing bracket that
stands first. -/
def classStart (ignoreCase : Bool) (cs : List Char) : ClassPart × List Char :=
  let member (p : ClassPart) (c : Char) : ClassPart :=
    p.add ⟨folded ignoreCase (.single c), 0⟩
  let p := (cs.takeWhile (· == '-')).foldl member (.start none)
  match cs.dropWhile (· == '-') with
  | ']' :: rest => if p.count = 0 then (member p ']', rest) else (p, ']' :: rest)
  | rest => (p, rest)

/-- The rest of a class up to its closing bracket. A bracket opens a class within the class, which
may have so many levels in `room`. Each round reads a character, so `fuel` need not exceed the
length. -/
def classBody? (ignoreCase : Bool) :
    (fuel room : Nat) → ClassPart → List Char → Option (Nested CharSet × List Char)
  | 0, _, _, _ => none
  | fuel + 1, room, p, cs =>
    match cs with
    | [] => none
    | ']' :: rest => some (p.close, rest)
    | '[' :: rest =>
      match namedSet? ignoreCase rest with
      | some (s, rest) => classBody? ignoreCase fuel room (p.add ⟨s, 0⟩) rest
      | none =>
        if room = 0 then none
        else do
          let (negated, rest) := negation rest
          let (q, rest) := classStart ignoreCase rest
          let (inner, rest) ← classBody? ignoreCase fuel (room - 1) q rest
          classBody? ignoreCase fuel room
            (p.add ⟨complementIf negated inner.value, inner.depth + 1⟩) rest
    | '&' :: '&' :: rest => classBody? ignoreCase fuel room (p.operate .inter) rest
    | '-' :: '-' :: rest => classBody? ignoreCase fuel room (p.operate .diff) rest
    | '~' :: '~' :: rest => classBody? ignoreCase fuel room (p.operate .symmDiff) rest
    | cs => do
      let (s, rest) ← classRange? ignoreCase cs
      classBody? ignoreCase fuel room (p.add ⟨s, 0⟩) rest

/-- The class after an opening bracket; `fuel` need not exceed the length. -/
def class? (ignoreCase : Bool) (fuel : Nat) (cs : List Char) :
    Option (Nested CharSet × List Char) := do
  let (negated, rest) := negation cs
  let (p, rest) := classStart ignoreCase rest
  let (s, rest) ← classBody? ignoreCase fuel greatestDepth p rest
  return (⟨complementIf negated s.value, s.depth + 1⟩, rest)

/-! ## Repetition counts -/

/-- The greatest count of repetitions, 2^32 - 1. -/
def greatestCount : Nat := 0xffffffff

/-- A number, with blanks around it. -/
def count? (cs : List Char) : Option (Nat × List Char) :=
  let cs := skipBlanks cs
  let digits := cs.takeWhile Char.isDigit
  if digits.isEmpty || greatestCount < digitsValue digits then none
  else some (digitsValue digits, skipBlanks (cs.dropWhile Char.isDigit))

/-- The counts after an opening brace: exactly, at least, or between. No blank may stand between a
comma and the closing brace. -/
def counts? (cs : List Char) : Option ((Nat × Option Nat) × List Char) := do
  let (least, rest) ← count? cs
  match rest with
  | '}' :: rest => return ((least, some least), rest)
  | ',' :: '}' :: rest => return ((least, none), rest)
  | ',' :: rest =>
    let (most, rest) ← count? rest
    match rest with
    | '}' :: rest => if least ≤ most then return ((least, some most), rest) else none
    | _ => none
  | _ => none

/-! ## Groups -/

/-- What has been read of a group: the alternatives that are complete and the members of the last
one, both in reverse order, whether the last member can be repeated, whether letter case is
ignored, and the place of the group if it is remembered. -/
structure Group where
  complete : List (Nested Regex)
  members : List (Nested Regex)
  repeatable : Bool
  ignoreCase : Bool
  place? : Option Nat

namespace Group

/-- A group of which nothing has been read. -/
def start (ignoreCase : Bool) (place? : Option Nat) : Group := ⟨[], [], false, ignoreCase, place?⟩

/-- Adds a member to the last alternative. -/
def push (g : Group) (r : Nested Regex) : Group :=
  { g with members := r :: g.members, repeatable := true }

/-- Adds a member without levels to the last alternative. -/
def pushOne (g : Group) (r : Regex) : Group := g.push ⟨r, 0⟩

/-- Minds letter case from here on or not. -/
def setCase (g : Group) (ignoreCase : Bool) : Group :=
  { g with
    members := ⟨.empty, 0⟩ :: g.members
    repeatable := false
    ignoreCase := ignoreCase }

/-- The greatest depth. -/
def deepest (rs : List (Nested Regex)) : Nat := rs.foldl (fun n r => max n r.depth) 0

/-- The last alternative. -/
def last (g : Group) : Nested Regex where
  value := sequence (g.members.reverse.map Nested.value)
  depth := deepest g.members + levels g.members.length

/-- Ends the last alternative and starts another. -/
def bar (g : Group) : Group :=
  { g with complete := g.last :: g.complete, members := [], repeatable := false }

/-- The alternatives of the group. -/
def alternatives (g : Group) : Nested Regex :=
  let rs := (g.last :: g.complete).reverse
  ⟨firstOf (rs.map Nested.value), deepest rs + levels rs.length⟩

/-- Ends the group. -/
def close (g : Group) : Nested Regex :=
  let a := g.alternatives
  ⟨g.place?.elim a.value (.capture · a.value), a.depth + 1⟩

/-- Repeats the last member. -/
def repeatLast? (g : Group) (greedy : Bool) (least : Nat) (most : Option Nat) : Option Group :=
  match g.members, g.repeatable with
  | r :: rest, true =>
    if r.depth < greatestDepth then
      some { g with members := ⟨times greedy least most r.value, r.depth + 1⟩ :: rest }
    else none
  | _, _ => none

end Group

/-- A repetition is lazy if a question mark follows it. -/
def lazyMark : List Char → Bool × List Char
  | '?' :: rest => (false, rest)
  | rest => (true, rest)

/-- The rest of a notation, with the groups that are open around the innermost one. Each round
reads a character, so `fuel` need not exceed the length. -/
def parseGroups? : Nat → List Group → Group → List Char → Option (Nested Regex)
  | 0, _, _, _ => none
  | _ + 1, [], g, [] => some g.alternatives
  | _ + 1, _ :: _, _, [] => none
  | fuel + 1, outer, g, c :: rest =>
    let repetition (least : Nat) (most : Option Nat) (rest : List Char) := do
      let (greedy, rest) := lazyMark rest
      parseGroups? fuel outer (← g.repeatLast? greedy least most) rest
    let character (c : Char) : Regex := ofSet (folded g.ignoreCase (.single c))
    let opening (ignoreCase : Bool) (place? : Option Nat) (rest : List Char) :=
      parseGroups? fuel (g :: outer) (.start ignoreCase place?) rest
    match c, rest with
    | '(', '?' :: ':' :: rest => opening g.ignoreCase none rest
    | '(', '?' :: 'i' :: ':' :: rest => opening true none rest
    | '(', '?' :: '-' :: 'i' :: ':' :: rest => opening false none rest
    | '(', '?' :: 'i' :: ')' :: rest => parseGroups? fuel outer (g.setCase true) rest
    | '(', '?' :: '-' :: 'i' :: ')' :: rest => parseGroups? fuel outer (g.setCase false) rest
    | '(', '?' :: _ => none
    | '(', rest => opening g.ignoreCase (some fuel) rest
    | ')', rest =>
      match outer with
      | [] => none
      | parent :: outer => parseGroups? fuel outer (parent.push g.close) rest
    | '|', rest => parseGroups? fuel outer g.bar rest
    | '*', rest => repetition 0 none rest
    | '+', rest => repetition 1 none rest
    | '?', rest => repetition 0 (some 1) rest
    | '{', rest => do
      let ((least, most), rest) ← counts? rest
      repetition least most rest
    | '.', rest => parseGroups? fuel outer (g.pushOne (.one .line)) rest
    | '^', rest => parseGroups? fuel outer (g.pushOne .atStart) rest
    | '$', rest => parseGroups? fuel outer (g.pushOne .atEnd) rest
    | '[', rest => do
      let (s, rest) ← class? g.ignoreCase fuel rest
      parseGroups? fuel outer (g.push ⟨ofSet s.value, s.depth⟩) rest
    | '\\', 'A' :: rest => parseGroups? fuel outer (g.pushOne .atStart) rest
    | '\\', 'z' :: rest => parseGroups? fuel outer (g.pushOne .atEnd) rest
    | '\\', c :: rest => do
      match ← escape? c with
      | .inl s => parseGroups? fuel outer (g.pushOne (ofSet s)) rest
      | .inr c => parseGroups? fuel outer (g.pushOne (character c)) rest
    | '\\', [] => none
    | c, rest => parseGroups? fuel outer (g.pushOne (character c)) rest

/-- Reads a notation; `none` if it is refused. -/
def parse? (source : List Char) : Option Regex := do
  let r ← parseGroups? (source.length + 1) [] (.start false none) source
  if r.depth ≤ greatestDepth && r.value.isLight then return r.value else none

/-- The program of a notation that is anchored at the start of the text. -/
def Program.anchored? (source : List Char) : Option Program :=
  (parse? ("^(?:".toList ++ source ++ [')'])).map Program.ofRegex

/-- The search of a program, which looks at the head of the text alone. -/
def Program.matcher (p : Program) : Matcher where
  find? cs := (p.headLength? cs).map (0, ·)
  span h := by
    obtain ⟨stop, hstop, ⟨⟩⟩ := Option.map_eq_some_iff.1 h
    exact ⟨Nat.zero_le _, headLength?_le hstop⟩

/-- The search for a notation that is anchored at the start of the text. -/
def matcher? (source : List Char) : Option Matcher :=
  (Program.anchored? source).map Program.matcher

end MusicMacro.Regex
