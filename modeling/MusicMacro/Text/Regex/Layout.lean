import Std.Data.HashMap
import MusicMacro.Text.CharSet.Encoding
import MusicMacro.Text.Regex.LiteralTree

/-!
# Layouts of automata

How much room an automaton over bytes takes. Its states are laid out one after another and have the
numbers of their order. A state has a weight, and so has each of its ways out if it has several.

Within a set of characters, states with the same ways out are one state if the first of them is
still remembered when the second is laid out. The memory has slots; a state is remembered in the
slot that its ways out determine, until another state takes the slot. So the number of states can
depend on the number at which the set begins.

* `Plan.lay?` — what has been laid out after a plan; `none` once it is too heavy.
-/

namespace MusicMacro

/-! ## Extents -/

/-- What has been laid out: the number of states, and the weight of their ways out. -/
structure Extent where
  states : Nat
  ways : Nat
deriving DecidableEq, Repr

namespace Extent

/-- Nothing. -/
def zero : Extent := ⟨0, 0⟩

instance instAdd : Add Extent := ⟨fun e e' => ⟨e.states + e'.states, e.ways + e'.ways⟩⟩

/-- The weight of a state. -/
def stateWeight : Nat := 32

/-- The weight of a range of bytes by which a state is left. -/
def rangeWeight : Nat := 8

/-- The weight of an alternative by which a state is left. -/
def branchWeight : Nat := 4

/-- The weight of all states and ways out. -/
def weight (e : Extent) : Nat := stateWeight * e.states + e.ways

/-- The greatest weight, which is ten mebibytes. -/
def greatestWeight : Nat := 10 * 1024 * 1024

/-- What has been laid out, unless it is too heavy. -/
def checked? (e : Extent) : Option Extent := if e.weight ≤ greatestWeight then some e else none

/-- A number of states with one way out each. -/
def plain (states : Nat) : Extent := ⟨states, 0⟩

/-- A state that is left by ranges of bytes. -/
def ranges (count : Nat) : Extent := ⟨1, rangeWeight * count⟩

/-- Alternatives by which a state is left that has been counted. -/
def branches (count : Nat) : Extent := ⟨0, branchWeight * count⟩

/-- A state with two alternatives. -/
def fork : Extent := plain 1 + branches 2

end Extent

/-! ## Literals -/

namespace LiteralTree

/-- The state for literals that go on after the same end, by the number of their next bytes, with
the alternative that leads to it. -/
def partExtent (count : Nat) : Extent :=
  if count = 0 then .zero
  else (if count = 1 then .plain 1 else .ranges count) + .branches 1

/-- The states of a place where literals go on: one for each part, and one with the parts and the
ends as its alternatives. A place where no literal goes on needs none. The next bytes that have been
counted are `count`. -/
def extentFrom (count : Nat) : LiteralTree → Extent
  | nil => partExtent count + .plain 1
  | stop before => partExtent count + .branches 1 + before.extentFrom 0
  | way _ below beside =>
    (if below.isLeaf then .zero else below.extentFrom 0) + beside.extentFrom (count + 1)

/-- The states of all places, and the one where all literals end. -/
def extent (t : LiteralTree) : Extent := .plain 1 + t.extentFrom 0

end LiteralTree

/-! ## Sets of characters -/

/-- What distinguishes a state: three numbers for each way out. -/
abbrev StateKey := List (Nat × Nat × Nat)

namespace StateKey

/-- Mixes a number into a word. -/
def mix (word : UInt64) (n : Nat) : UInt64 := (word ^^^ n.toUInt64) * 0x100000001b3

/-- The slot of a state among so many slots. -/
def slot (key : StateKey) (slots : Nat) : Nat :=
  let word := key.foldl (fun w (a, b, c) => mix (mix (mix w a) b) c) 0xcbf29ce484222325
  word.toNat % slots

end StateKey

/-- What has been laid out, with the states in memory and their numbers. -/
structure Sketch where
  extent : Extent
  memory : Std.HashMap Nat (StateKey × Nat)

namespace Sketch

/-- Nothing but what has been laid out is remembered. -/
def start (e : Extent) : Sketch := ⟨e, ∅⟩

/-- Lays out a state. -/
def add (s : Sketch) (slot : Nat) (key : StateKey) (size : Extent) : Nat × Sketch :=
  let ⟨extent, memory⟩ := s
  (extent.states, ⟨extent + size, memory.insert slot (key, extent.states)⟩)

/-- The state with a key: the one in memory, or a new one. -/
def state (s : Sketch) (slots : Nat) (key : StateKey) (size : Extent) : Nat × Sketch :=
  let slot := key.slot slots
  match s.memory[slot]? with
  | some (key', n) => if key' = key then (n, s) else s.add slot key size
  | none => s.add slot key size

/-- The number of slots where encodings are read forwards. -/
def forwardSlots : Nat := 10000

/-- The number of slots where encodings are read backwards. -/
def backwardSlots : Nat := 1000

/-- The state that is left by ranges of bytes. -/
def rangeState (s : Sketch) (ways : StateKey) : Nat × Sketch :=
  s.state forwardSlots ways (.ranges ways.length)

/-- The state in front of another one that a range of bytes leads to. -/
def stateBefore (s : Sketch) (next : Nat) (bytes : ByteRange) : Nat × Sketch :=
  s.state backwardSlots [(next, bytes.1, bytes.2)] (.plain 1)

end Sketch

/-- Lays out the states below the branches of a tree, each before the one that leads to it, and
gives the ways out of the state that has the branches. Where a sequence ends, it leads to
`target`. -/
def ByteTree.lay (target : Nat) : ByteTree → Sketch → StateKey × Sketch
  | nil, s => ([], s)
  | branch (low, high) below beside, s =>
    let (ways, s) := below.lay target s
    let (next, s) := if ways.isEmpty then (target, s) else s.rangeState ways
    let (more, s) := beside.lay target s
    ((low, high, next) :: more, s)

namespace Extent

/-- Adds the states of a set whose encodings are read forwards. The first is the one to which all
sequences lead. -/
def addTree (e : Extent) (t : ByteTree) : Extent :=
  let (ways, s) := t.lay e.states (.start (e + plain 1))
  (s.rangeState ways).2.extent

/-- Adds the states of a set whose encodings are read backwards: one with the sequences as its
alternatives, the one to which all sequences lead, and those of the sequences. -/
def addSequences (e : Extent) (qs : List (List ByteRange)) : Extent :=
  let s := qs.foldl (fun s q =>
    (q.foldl (fun (next, s) bytes => s.stateBefore next bytes) (e.states + 1, s)).2)
    (Sketch.start (e + plain 2))
  s.extent + branches qs.length

end Extent

/-! ## Plans -/

/-- What is to be laid out. -/
inductive Plan
  /-- States whose number and ways out do not depend on where they begin. -/
  | block (e : Extent)
  /-- A set whose encodings are read forwards. -/
  | tree (t : ByteTree)
  /-- A set whose encodings are read backwards. -/
  | sequences (qs : List (List ByteRange))
  /-- One plan after another. -/
  | append (p q : Plan)
  /-- A plan a number of times. -/
  | times (n : Nat) (p : Plan)
deriving Repr

namespace Plan

/-- Does a step a number of times, until it fails. -/
def iterate? (f : Extent → Option Extent) : Nat → Extent → Option Extent
  | 0, e => some e
  | n + 1, e => (f e).bind (iterate? f n)

/-- What has been laid out after a plan, unless it is too heavy. -/
def lay? : Plan → Extent → Option Extent
  | block e', e => (e + e').checked?
  | tree t, e => (e.addTree t).checked?
  | sequences qs, e => (e.addSequences qs).checked?
  | append p q, e => (p.lay? e).bind q.lay?
  | times n p, e => iterate? p.lay? n e

end Plan

end MusicMacro
