import MusicMacro.NoteLength
import MusicMacro.Text.Digit
import MusicMacro.Text.Pattern

/-!
# Length texts

A length is written as numbers that are joined, `4&8` for a quarter and an eighth, and then
holds and dots. A hold adds the base length once more. The first dot adds half the base length, and
each further dot half of what the dot before it added. Without numbers the base length is the
default length.

Reading and evaluating are separate: `LengthText.read` finds the parts of a length text, whatever
the default length is, and `LengthText.value` says how long it is.

* `LengthText.normal_value` — a normal length, if the default length is one.
-/

namespace MusicMacro

/-- The tokens of length texts. -/
structure LengthTokens where
  /-- Adds the base length once more. -/
  hold : Pattern
  /-- Adds half of what was added before. -/
  dot : Pattern
  /-- Stands between numbers. -/
  join : Pattern

/-- What may follow the numbers of a length. -/
inductive Suffix
  | hold
  | dot
deriving DecidableEq, Repr

/-- The parts of a written length. -/
structure LengthText where
  numbers : List Nat
  suffixes : List Suffix
deriving DecidableEq, Repr

/-! ## Reading -/

namespace LengthTokens

/-- Reads a hold or a dot. -/
def readSuffix (tokens : LengthTokens) : Scanner Suffix :=
  (tokens.hold.read.map fun _ => Suffix.hold).orElse (tokens.dot.read.map fun _ => Suffix.dot)

theorem readSuffix_progresses (tokens : LengthTokens) : tokens.readSuffix.Progresses :=
  (tokens.hold.read_progresses.map _).orElse (tokens.dot.read_progresses.map _)

/-- Reads numbers with the joining token between them. A joining token after the last number
belongs to them. -/
def readNumbers (tokens : LengthTokens) (cs : List Char) : List Nat × List Char :=
  match h : readDigits cs with
  | none => ([], cs)
  | some (digits, rest) =>
    have := readDigits_progresses _ _ _ h
    match h : tokens.join.read rest with
    | none => ([digitsValue digits], rest)
    | some (_, rest) =>
      have := tokens.join.read_progresses _ _ _ h
      let more := tokens.readNumbers rest
      (digitsValue digits :: more.1, more.2)
termination_by cs.length

theorem readNumbers_length_le (tokens : LengthTokens) (cs : List Char) :
    (tokens.readNumbers cs).2.length ≤ cs.length := by
  fun_induction readNumbers tokens cs with
  | case1 => simp
  | case2 _ _ _ _ hlt => exact Nat.le_of_lt hlt
  | case3 _ _ _ _ hlt _ _ _ hlt' _ ih =>
    exact Nat.le_trans ih (Nat.le_of_lt (Nat.lt_trans hlt' hlt))

end LengthTokens

/-- Reads a length text; it may be empty. -/
def LengthText.read (tokens : LengthTokens) (cs : List Char) : LengthText × List Char :=
  let (numbers, rest) := tokens.readNumbers cs
  let (suffixes, rest) := tokens.readSuffix.many tokens.readSuffix_progresses rest
  (⟨numbers, suffixes⟩, rest)

theorem LengthText.read_length_le (tokens : LengthTokens) (cs : List Char) :
    (LengthText.read tokens cs).2.length ≤ cs.length :=
  Nat.le_trans (Scanner.many_length_le ..) (tokens.readNumbers_length_le cs)

/-! ## Evaluating -/

namespace LengthText

open NoteLength (zero half addOverflow mulOverflow Overflow normal_add normal_mul normal_zero
  normal_half normal_ofNumber?)

/-- The lengths that the numbers write. -/
def parts (t : LengthText) : List NoteLength := t.numbers.filterMap NoteLength.ofNumber?

/-- The base length: the sum of the parts, or the default where there is none. -/
def base (t : LengthText) (default : NoteLength) : NoteLength :=
  let sum := t.parts.foldl (· + ·) zero
  if sum.isZero then default else sum

/-- Adds what the suffixes add to a length. `dot` is what the next dot adds. -/
def extend (base : NoteLength) : List Suffix → (length dot : NoteLength) → NoteLength
  | [], length, _ => length
  | .hold :: rest, length, dot => extend base rest (length + base) dot
  | .dot :: rest, length, dot => extend base rest (length + dot) (dot * half)

/-- The length that is written. -/
def value (t : LengthText) (default : NoteLength) : NoteLength :=
  let base := t.base default
  extend base t.suffixes base (base * half)

theorem normal_sum {lengths : List NoteLength} (h : ∀ a ∈ lengths, a.Normal) {sum : NoteLength}
    (hs : sum.Normal) : (lengths.foldl (· + ·) sum).Normal := by
  induction lengths generalizing sum with
  | nil => exact hs
  | cons a lengths ih =>
    obtain ⟨ha, h⟩ := List.forall_mem_cons.1 h
    exact ih h (normal_add hs ha)

theorem normal_of_mem_parts {t : LengthText} {a : NoteLength} (h : a ∈ t.parts) : a.Normal := by
  obtain ⟨n, -, hn⟩ := List.mem_filterMap.1 h
  exact normal_ofNumber? hn

/-- The sum of the parts is normal; it is zero where there is none. -/
theorem normal_parts (t : LengthText) : (t.parts.foldl (· + ·) zero).Normal :=
  normal_sum (fun _ => normal_of_mem_parts) normal_zero

theorem normal_base (t : LengthText) {default : NoteLength} (h : default.Normal) :
    (t.base default).Normal := by
  unfold base
  dsimp only
  split
  · exact h
  · exact t.normal_parts

theorem normal_extend {base : NoteLength} (hb : base.Normal) (suffixes : List Suffix)
    {length dot : NoteLength} (hl : length.Normal) (hd : dot.Normal) :
    (extend base suffixes length dot).Normal := by
  induction suffixes generalizing length dot with
  | nil => exact hl
  | cons s rest ih =>
    cases s with
    | hold => exact ih (normal_add hl hb) hd
    | dot => exact ih (normal_add hl hd) (normal_mul hd normal_half)

/-- What is written is normal, if the default is. -/
theorem normal_value (t : LengthText) {default : NoteLength} (h : default.Normal) :
    (t.value default).Normal :=
  have hb := t.normal_base h
  normal_extend hb t.suffixes hb (normal_mul hb normal_half)

/-- The overflows of a sum of lengths, in order. -/
def sumOverflows : NoteLength → List NoteLength → List Overflow
  | _, [] => []
  | sum, a :: rest => addOverflow sum a ++ sumOverflows (sum + a) rest

/-- The overflows of what the suffixes add, in order. -/
def extendOverflows (base : NoteLength) : List Suffix → (length dot : NoteLength) → List Overflow
  | [], _, _ => []
  | .hold :: rest, length, dot =>
    addOverflow length base ++ extendOverflows base rest (length + base) dot
  | .dot :: rest, length, dot =>
    addOverflow length dot ++ mulOverflow dot half ++
      extendOverflows base rest (length + dot) (dot * half)

/-- The operations of `value` that do not fit, in order. -/
def overflows (t : LengthText) (default : NoteLength) : List Overflow :=
  let base := t.base default
  sumOverflows zero t.parts ++ mulOverflow base half ++
    extendOverflows base t.suffixes base (base * half)

end LengthText

end MusicMacro
