import MusicMacro.Text.Pattern

/-!
# Cursors

A cursor walks through a text. It knows its place, counted in bytes of UTF-8, and what lies
ahead. An attempt to read that fails leaves it where it is, in front of any blanks.

* `Cursor.advance` — the only move: to a later place.
* `Cursor.scan` — an attempt to read.
-/

namespace MusicMacro

/-- The number of bytes that characters take in UTF-8. -/
def utf8Length : List Char → Nat
  | [] => 0
  | c :: cs => c.utf8Size + utf8Length cs

/-- A place in a text. -/
structure Cursor where
  /-- The bytes before the place. -/
  position : Nat
  /-- The characters after it. -/
  rest : List Char
deriving DecidableEq, Repr

namespace Cursor

/-- The start of a text. -/
def start (cs : List Char) : Cursor := ⟨0, cs⟩

/-- Whether nothing lies ahead. -/
def atEnd (c : Cursor) : Bool := c.rest.isEmpty

/-- Moves to where only `rest` lies ahead. -/
def advance (c : Cursor) (rest : List Char) : Cursor :=
  ⟨c.position + (utf8Length c.rest - utf8Length rest), rest⟩

/-- Reads a value where the scanner finds one, and stays where it does not. -/
def scan {α : Type} (s : Scanner α) (c : Cursor) : Option α × Cursor :=
  match s c.rest with
  | some (a, rest) => (some a, c.advance rest)
  | none => (none, c)

/-- Reads a token. -/
def read (p : Pattern) (c : Cursor) : Option (List Char) × Cursor := c.scan p.read

/-- Reads a token that a dialect may lack. -/
def readOptional (p : Option Pattern) (c : Cursor) : Option (List Char) × Cursor :=
  match p with
  | some p => c.read p
  | none => (none, c)

/-- Reads the digits of a number. -/
def readDigits (c : Cursor) : Option (List Char) × Cursor := c.scan MusicMacro.readDigits

/-- Passes over one character, if there is one. -/
def skip (c : Cursor) : Cursor :=
  match c.rest with
  | d :: rest => ⟨c.position + d.utf8Size, rest⟩
  | [] => c

end Cursor

end MusicMacro
