/-!
# Blanks

The characters with the Unicode property `White_Space`, the ideographic space among them.

* `isBlank_of_isWhitespace` — the blanks that the core library knows are blanks here.
* `skipBlanks_append` — leading blanks disappear, and nothing else.
-/

namespace MusicMacro

/-- The code points with the Unicode property `White_Space`, as ranges. -/
def blankRanges : List (Nat × Nat) :=
  [(9, 13), (0x20, 0x20), (0x85, 0x85), (0xa0, 0xa0), (0x1680, 0x1680), (0x2000, 0x200a),
    (0x2028, 0x2029), (0x202f, 0x202f), (0x205f, 0x205f), (0x3000, 0x3000)]

/-- A character with the Unicode property `White_Space`. -/
def isBlank (c : Char) : Bool :=
  blankRanges.any fun (low, high) => low ≤ c.toNat && c.toNat ≤ high

theorem isBlank_of_isWhitespace {c : Char} (h : c.isWhitespace) : isBlank c := by
  have : c = ' ' ∨ c = '\t' ∨ c = '\r' ∨ c = '\n' := by
    simpa [Char.isWhitespace, or_assoc] using h
  rcases this with rfl | rfl | rfl | rfl <;> decide

/-- The text from its first character that is no blank. -/
def skipBlanks (cs : List Char) : List Char := cs.dropWhile isBlank

/-- The blanks in front of the text. -/
def leadingBlanks (cs : List Char) : List Char := cs.takeWhile isBlank

theorem leadingBlanks_append_skipBlanks (cs : List Char) :
    leadingBlanks cs ++ skipBlanks cs = cs := List.takeWhile_append_dropWhile

theorem skipBlanks_append {blanks : List Char} (h : ∀ c ∈ blanks, isBlank c) (cs : List Char) :
    skipBlanks (blanks ++ cs) = skipBlanks cs := by
  induction blanks with
  | nil => rfl
  | cons c rest ih =>
    have hc : isBlank c = true := h c (List.mem_cons_self ..)
    have ih := ih fun d hd => h d (List.mem_cons_of_mem _ hd)
    simpa [skipBlanks, List.dropWhile_cons, hc] using ih

theorem length_skipBlanks_le (cs : List Char) : (skipBlanks cs).length ≤ cs.length :=
  (List.dropWhile_sublist _).length_le

/-- The text without the blanks at its two ends. -/
def trimBlanks (cs : List Char) : List Char :=
  (skipBlanks (skipBlanks cs).reverse).reverse

end MusicMacro
