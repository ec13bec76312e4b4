/-!
# Trees of literals

Literals that are alternatives of each other, as a tree of their bytes, in which literals share
their beginning. Where a literal ends that is the beginning of others, the tree keeps which of them
came before it and which after it, as the first alternative that fits is preferred.

* `LiteralTree.ofLiterals` — the tree of literals, in order of preference.
-/

namespace MusicMacro

/-- The literals with a common beginning, by the byte behind it; the latest come first. -/
inductive LiteralTree
  /-- No literal. -/
  | nil
  /-- The literals that go on with a byte, and those beside them. -/
  | way (byte : UInt8) (below beside : LiteralTree)
  /-- A literal that ends here, and those that came before it. -/
  | stop (before : LiteralTree)
deriving Repr

namespace LiteralTree

/-- Changes the literals that go on with a byte, among those that came after the last end. -/
def modifyWay (byte : UInt8) (f : LiteralTree → LiteralTree) : LiteralTree → LiteralTree
  | way byte' below beside =>
    if byte = byte' then way byte' (f below) beside
    else way byte' below (modifyWay byte f beside)
  | t => way byte (f nil) t

/-- Adds a literal. A literal that ends where another one has ended, with nothing else there,
changes nothing. -/
def add : List UInt8 → LiteralTree → LiteralTree
  | [], stop nil => stop nil
  | [], t => stop t
  | byte :: rest, t => modifyWay byte (add rest) t

/-- The tree of literals. -/
def ofLiterals (qs : List (List UInt8)) : LiteralTree := qs.foldl (fun t q => add q t) nil

/-- No literal goes on here. -/
def isLeaf : LiteralTree → Bool
  | nil | stop nil => true
  | _ => false

end LiteralTree

end MusicMacro
