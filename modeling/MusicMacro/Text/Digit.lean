/-!
# Digits

The ten ASCII digits write numbers. The decimal digits of every script (Unicode category `Nd`)
matter only to a regular expression that asks for a digit.

* `decimalRuns` — the first character of each run of ten digits, in Unicode 16.
* `digitsValue_append` — a number is read from left to right.
-/

namespace MusicMacro

/-- The number that a list of ASCII digits writes in base ten; 0 for the empty list. -/
def digitsValue (digits : List Char) : Nat :=
  digits.foldl (fun n c => 10 * n + (c.toNat - '0'.toNat)) 0

theorem digitsValue_append (digits : List Char) (c : Char) :
    digitsValue (digits ++ [c]) = 10 * digitsValue digits + (c.toNat - '0'.toNat) := by
  simp [digitsValue]

/-- The zero of each run of ten decimal digits. -/
def decimalRuns : List Nat :=
  [0x30, 0x660, 0x6f0, 0x7c0, 0x966, 0x9e6, 0xa66, 0xae6, 0xb66, 0xbe6, 0xc66, 0xce6, 0xd66,
    0xde6, 0xe50, 0xed0, 0xf20, 0x1040, 0x1090, 0x17e0, 0x1810, 0x1946, 0x19d0, 0x1a80, 0x1a90,
    0x1b50, 0x1bb0, 0x1c40, 0x1c50, 0xa620, 0xa8d0, 0xa900, 0xa9d0, 0xa9f0, 0xaa50, 0xabf0,
    0xff10, 0x104a0, 0x10d30, 0x10d40, 0x11066, 0x110f0, 0x11136, 0x111d0, 0x112f0, 0x11450,
    0x114d0, 0x11650, 0x116c0, 0x116d0, 0x116da, 0x11730, 0x118e0, 0x11950, 0x11bf0, 0x11c50,
    0x11d50, 0x11da0, 0x11f50, 0x16130, 0x16a60, 0x16ac0, 0x16b50, 0x16d70, 0x1ccf0, 0x1d7ce,
    0x1d7d8, 0x1d7e2, 0x1d7ec, 0x1d7f6, 0x1e140, 0x1e2f0, 0x1e4f0, 0x1e5f1, 0x1e950, 0x1fbf0]

/-- A character of the Unicode category `Nd`. -/
def isDecimalDigit (c : Char) : Bool :=
  decimalRuns.any fun start => start ≤ c.toNat && c.toNat < start + 10

theorem isDecimalDigit_of_isDigit {c : Char} (h : c.isDigit) : isDecimalDigit c := by
  have : (0x30 ≤ c.toNat && c.toNat < 0x30 + 10) = true := by
    simp only [Char.isDigit, Bool.and_eq_true, decide_eq_true_eq, ge_iff_le,
      UInt32.le_iff_toNat_le] at h ⊢
    obtain ⟨low, high⟩ := h
    change 48 ≤ c.toNat at low
    change c.toNat ≤ 57 at high
    omega
  exact List.any_eq_true.2 ⟨0x30, List.mem_cons_self .., this⟩

end MusicMacro
