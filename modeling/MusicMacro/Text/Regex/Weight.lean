import MusicMacro.Text.Regex
import MusicMacro.Text.Regex.Layout

/-!
# Weights of regular expressions

An expression is refused if an automaton over bytes that recognises it, forwards or backwards, would
weigh too much.

* `Regex.plan` — the layout of the automaton for an expression.
* `Regex.isLight` — whether an expression is accepted.
-/

namespace MusicMacro

/-- The direction in which an automaton reads a text. -/
inductive Direction
  | forward
  | backward
deriving DecidableEq, Repr

/-- The layout for a set. ASCII characters are the ways out of one state. -/
def CharSet.plan (d : Direction) (s : CharSet) : Plan :=
  let rs := s.ranges
  if rs.all fun (_, high) => high < 0x80 then .block (.ranges rs.length + .plain 1)
  else match d with
    | .forward => .tree (.ofSequences s.byteSequences)
    | .backward => .sequences s.byteSequences

namespace Regex

/-! ## Anchors -/

/-- Every match begins at the start of the text, as the expression says so at its beginning. -/
def startsAnchored : Regex → Bool
  | atStart => true
  | append r s => s.startsAnchored && r.isIdle || r.startsAnchored
  | either r s => s.startsAnchored && r.startsAnchored
  | repeated _ least _ r => 0 < least && r.startsAnchored
  | capture _ r => r.startsAnchored
  | _ => false

/-- Every match ends at the end of the text, as the expression says so at its end. -/
def endsAnchored : Regex → Bool
  | atEnd => true
  | append r s => s.endsAnchored || s.isIdle && r.endsAnchored
  | either r s => s.endsAnchored && r.endsAnchored
  | repeated _ least _ r => 0 < least && r.endsAnchored
  | capture _ r => r.endsAnchored
  | _ => false

/-! ## Layouts -/

/-- The bytes of a literal, in the order in which they are read. -/
def literalBytes (d : Direction) (cs : List Char) : List UInt8 :=
  let bytes := cs.flatMap String.utf8EncodeChar
  match d with
  | .forward => bytes
  | .backward => bytes.reverse

/-- The literals of which an expression is a choice, if it is one. -/
def literals? (r : Regex) : Option (List (List Char)) :=
  r.alternatives.mapM fun
    | literal cs => some cs
    | _ => none

/-- The expression has alternatives. -/
def isChoice : Regex → Bool
  | either .. => true
  | _ => false

/-- The layout of two parts that are read one after the other. -/
def bothPlans (d : Direction) (p q : Plan) : Plan :=
  match d with
  | .forward => p.append q
  | .backward => q.append p

/-- The layout of the alternatives `p` and then `q`. Further alternatives share the state that
chooses and the one where all end with the first two. -/
def eitherPlan (further : Bool) (p q : Plan) : Plan :=
  p.append (q.append (.block (if further then .branches 1 else .plain 2 + .branches 2)))

/-- The layout of an optional part. -/
def optionPlan (p : Plan) : Plan := (Plan.block .fork).append p

/-- The layout of a repetition. -/
def repeatedPlan (least : Nat) (most : Option Nat) (mayBeEmpty : Bool) (p : Plan) : Plan :=
  match least, most with
  | 0, none =>
    if mayBeEmpty then p.append (.block (.fork + .fork + .plain 1)) else optionPlan p
  | least, none => (p.times least).append (.block .fork)
  | 0, some 1 => (optionPlan p).append (.block (.plain 1))
  | least, some most =>
    if least = most then p.times least
    else (if least = 0 then .block (.plain 1) else p.times least).append
      ((Plan.block (.plain 1)).append ((optionPlan p).times (most - least)))

/-- The layout of a group that is remembered, which it is forwards only. -/
def capturePlan (d : Direction) (p : Plan) : Plan :=
  match d with
  | .forward => (Plan.block (.plain 1)).append (p.append (.block (.plain 1)))
  | .backward => p

/-- The layout of an expression. It is a part if it is the beginning of a longer choice; a choice is
a tree of literals as a whole or not at all. -/
def planOf (d : Direction) (isPart : Bool) : Regex → Plan
  | empty | atStart | atEnd => .block (.plain 1)
  | literal cs => .block (.plain (literalBytes d cs).length)
  | one s => s.plan d
  | append r s => bothPlans d (r.planOf d false) (s.planOf d false)
  | either r s =>
    match if isPart then none else (either r s).literals? with
    | some qs => .block (LiteralTree.ofLiterals (qs.map (literalBytes d))).extent
    | none => eitherPlan r.isChoice (r.planOf d true) (s.planOf d false)
  | repeated _ least most r => repeatedPlan least most r.mayBeEmpty (r.planOf d false)
  | capture _ r => capturePlan d (r.planOf d false)

/-- The layout of the states by which a search passes over what is in front of a match. -/
def searchPlan (anchored : Bool) : Plan :=
  .block (if anchored then .plain 1 else .fork + .ranges 1 + .plain 1)

/-- The layout of the automaton for an expression. The whole match is a group. -/
def plan (d : Direction) (r : Regex) : Plan :=
  let anchored := match d with
    | .forward => r.startsAnchored
    | .backward => r.endsAnchored
  (searchPlan anchored).append
    ((capturePlan d (r.planOf d false)).append (.block (.plain 1)))

/-- Automata for the expression are not too heavy. -/
def isLight (r : Regex) : Bool :=
  [Direction.forward, Direction.backward].all fun d => ((r.plan d).lay? .zero).isSome

end Regex

end MusicMacro
