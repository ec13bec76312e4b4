/-!
# Separated texts

A character that separates the parts of a text: bars between voices, slashes in a path.

* `intercalate_separated` — the parts with the character between them are the text.
-/

namespace MusicMacro

/-- The parts of a text between the occurrences of a character. There is always at least one. -/
def separated (separator : Char) : List Char → List (List Char)
  | [] => [[]]
  | c :: cs =>
    match separated separator cs with
    | [] => [[c]]
    | part :: rest => if c = separator then [] :: part :: rest else (c :: part) :: rest

theorem separated_ne_nil (separator : Char) (cs : List Char) : separated separator cs ≠ [] := by
  cases cs with
  | nil => simp [separated]
  | cons c cs =>
    rw [separated]
    split
    · simp
    · split <;> simp

theorem intercalate_separated (separator : Char) (cs : List Char) :
    [separator].intercalate (separated separator cs) = cs := by
  induction cs with
  | nil => rfl
  | cons c cs ih =>
    rw [separated]
    split
    · next h => exact absurd h (separated_ne_nil separator cs)
    · next part rest h =>
      rw [h] at ih
      split
      · next hc => subst hc; simp [List.intercalate, List.intersperse] at ih ⊢; simpa using ih
      · cases rest <;> simp_all [List.intercalate, List.intersperse]

end MusicMacro
