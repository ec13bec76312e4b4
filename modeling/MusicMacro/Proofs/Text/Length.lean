import MusicMacro.NoteLength.Text
import MusicMacro.Proofs.Text.Spelling

/-!
# Written lengths

A length text is numbers with the joining token between them, and then holds and dots in any order;
each of the two may be missing. It is read as it was written, whatever comes next that cannot go on
with it.

* `LengthTokens.Numbers`, `LengthTokens.Written` — how a length text is written.
* `LengthTokens.Continues` — what would go on with it.
* `LengthText.read_append` — what is written is read.
* `LengthTokens.readTimed_append` — also behind a token.
-/

namespace MusicMacro

/-- The tokens in length texts. -/
inductive LengthToken
  | hold
  | dot
  | join
deriving DecidableEq, Repr

/-- The token of a suffix. -/
def Suffix.token : Suffix → LengthToken
  | hold => .hold
  | dot => .dot

namespace LengthTokens

variable {tokens : LengthTokens}

/-- How a token in length texts is spelt. -/
def pattern (tokens : LengthTokens) : LengthToken → Pattern
  | .hold => tokens.hold
  | .dot => tokens.dot
  | .join => tokens.join

/-! ## Writing -/

/-- The text writes numbers, with the joining token between them. -/
inductive Numbers (tokens : LengthTokens) : List Nat → List Char → Prop
  | none : Numbers tokens [] []
  | one {n : Nat} {text : List Char} : Numeral n text → Numbers tokens [n] text
  | more {n m : Nat} {ns : List Nat} {text join more : List Char} :
    Numeral n text → tokens.join.Spelt join → Numbers tokens (m :: ns) more →
      Numbers tokens (n :: m :: ns) (text ++ join ++ more)

/-- The text writes holds and dots. -/
def Suffixes (tokens : LengthTokens) : List Suffix → List Char → Prop :=
  Each fun s => (tokens.pattern s.token).Spelt

/-- The text writes a length. -/
def Written (tokens : LengthTokens) (t : LengthText) (text : List Char) : Prop :=
  ∃ numbers suffixes, tokens.Numbers t.numbers numbers ∧ tokens.Suffixes t.suffixes suffixes ∧
    text = numbers ++ suffixes

/-- A character that could go on with a length text. -/
def Continues (tokens : LengthTokens) (c : Char) : Prop :=
  c.isDigit ∨ ∃ t, c ∈ (tokens.pattern t).heads

theorem isDigit_of_not_continues {c : Char} (h : ¬tokens.Continues c) : c.isDigit = false := by
  by_contra hc
  exact h (.inl (Bool.not_eq_false _ ▸ hc))

theorem not_mem_heads_of_not_continues {c : Char} (h : ¬tokens.Continues c) (t : LengthToken) :
    c ∉ (tokens.pattern t).heads := fun hc => h (.inr ⟨t, hc⟩)

/-! ## What can be written -/

theorem exists_numbers (h : tokens.join.spellings ≠ []) (ns : List Nat) :
    ∃ text, tokens.Numbers ns text := by
  obtain ⟨join, hj⟩ := Pattern.exists_spelt h
  induction ns with
  | nil => exact ⟨[], .none⟩
  | cons n ns ih =>
    obtain ⟨text, hn⟩ := exists_numeral n
    obtain ⟨more, hm⟩ := ih
    cases ns with
    | nil => exact ⟨text, .one hn⟩
    | cons m ns => exact ⟨text ++ join ++ more, .more hn hj hm⟩

/-- Every length text can be written, if every token can. -/
theorem exists_written (h : ∀ t, (tokens.pattern t).spellings ≠ []) (t : LengthText) :
    ∃ text, tokens.Written t text := by
  obtain ⟨numbers, hn⟩ := exists_numbers (h .join) t.numbers
  obtain ⟨suffixes, hs⟩ :=
    Each.exists_text (fun (s : Suffix) => Pattern.exists_spelt (h s.token)) t.suffixes
  exact ⟨numbers ++ suffixes, numbers, suffixes, hn, hs, rfl⟩

/-! ## What comes next -/

theorem Numbers.next {ns : List Nat} {text rest : List Char} (h : tokens.Numbers ns text)
    {P : Char → Prop} (hd : ∀ c, c.isDigit → P c) (hr : Next P rest) : Next P (text ++ rest) := by
  cases h with
  | none => exact hr
  | one hn => exact hn.next hd rest
  | more hn _ _ =>
    rw [List.append_assoc, List.append_assoc]
    exact hn.next hd _

theorem Suffixes.next (ha : Apart tokens.pattern) {suffixes : List Suffix} {text rest : List Char}
    (h : tokens.Suffixes suffixes text) {P : Char → Prop}
    (hs : ∀ (s : Suffix), ∀ c ∈ (tokens.pattern s.token).heads, P c) (hr : Next P rest) :
    Next P (text ++ rest) :=
  Each.next h (fun s _ more hw => hw.next (ha.plain s.token) (hs s) more) hr

/-- A text with a length begins with what could go on with a length, if the length is not empty. -/
theorem Written.next (ha : Apart tokens.pattern) {t : LengthText} {text rest : List Char}
    (h : tokens.Written t text) {P : Char → Prop} (hP : ∀ c, tokens.Continues c → P c)
    (hr : Next P rest) : Next P (text ++ rest) := by
  obtain ⟨numbers, suffixes, hn, hs, rfl⟩ := h
  rw [List.append_assoc]
  refine hn.next (fun c hc => hP c (.inl hc)) ?_
  exact hs.next ha (fun s c hc => hP c (.inr ⟨s.token, hc⟩)) hr

/-! ## Reading -/

theorem readNumbers_of_none {cs : List Char} (h : readDigits cs = none) :
    tokens.readNumbers cs = ([], cs) := by
  unfold readNumbers
  split
  · rfl
  · next hs =>
    rw [h] at hs
    cases hs

theorem readNumbers_of_last {cs digits rest : List Char} (h : readDigits cs = some (digits, rest))
    (hj : tokens.join.read rest = none) :
    tokens.readNumbers cs = ([digitsValue digits], rest) := by
  unfold readNumbers
  split
  · next hn =>
    rw [h] at hn
    cases hn
  · next hs =>
    rw [h] at hs
    cases hs
    split
    · rfl
    · next hs' =>
      rw [hj] at hs'
      cases hs'

theorem readNumbers_of_join {cs digits rest m more : List Char}
    (h : readDigits cs = some (digits, rest)) (hj : tokens.join.read rest = some (m, more)) :
    tokens.readNumbers cs =
      (digitsValue digits :: (tokens.readNumbers more).1, (tokens.readNumbers more).2) := by
  conv => lhs; unfold readNumbers
  split
  · next hn =>
    rw [h] at hn
    cases hn
  · next hs =>
    rw [h] at hs
    cases hs
    split
    · next hn =>
      rw [hj] at hn
      cases hn
    · next hs' =>
      rw [hj] at hs'
      cases hs'
      rfl

/-- Numbers that are written are read. -/
theorem readNumbers_append (ha : Apart tokens.pattern) {ns : List Nat} {text rest : List Char}
    (h : tokens.Numbers ns text) (hd : Next (fun c => c.isDigit = false) rest)
    (hj : Next (· ∉ tokens.join.heads) rest) : tokens.readNumbers (text ++ rest) = (ns, rest) := by
  have hplain : tokens.join.Plain := ha.plain .join
  induction h with
  | none => exact readNumbers_of_none (readDigits_eq_none hd)
  | one hn =>
    obtain ⟨digits, hr, hv⟩ := readDigits_append hn hd
    rw [readNumbers_of_last hr (Pattern.read_eq_none hplain hj), hv]
  | more hn hjoin _ ih =>
    rw [List.append_assoc, List.append_assoc]
    obtain ⟨digits, hr, hv⟩ :=
      readDigits_append hn (hjoin.next hplain (fun c hc => (hplain.visible c hc).2) _)
    obtain ⟨m, hm⟩ := Pattern.read_append hplain hjoin _
    rw [readNumbers_of_join hr hm, ih, hv]

/-- A suffix that is written is read. -/
theorem readSuffix_append (ha : Apart tokens.pattern) (s : Suffix) {text : List Char}
    (h : (tokens.pattern s.token).Spelt text) (rest : List Char) :
    tokens.readSuffix (text ++ rest) = some (s, rest) := by
  obtain ⟨m, hm⟩ := Pattern.read_append (ha.plain s.token) h rest
  unfold readSuffix Scanner.orElse Scanner.map
  cases s with
  | hold =>
    rw [show tokens.hold.read (text ++ rest) = some (m, rest) from hm]
    rfl
  | dot =>
    have hn : tokens.hold.read (text ++ rest) = none :=
      ha.read_other (show LengthToken.dot ≠ .hold from nofun) h rest
    rw [hn, show tokens.dot.read (text ++ rest) = some (m, rest) from hm]
    rfl

theorem readSuffix_eq_none (ha : Apart tokens.pattern) {cs : List Char}
    (h : Next (fun c => ¬tokens.Continues c) cs) : tokens.readSuffix cs = none := by
  have hn : ∀ t, (tokens.pattern t).read cs = none := fun t =>
    Pattern.read_eq_none (ha.plain t) (h.mono fun c hc => not_mem_heads_of_not_continues hc t)
  unfold readSuffix Scanner.orElse Scanner.map
  rw [show tokens.hold.read cs = none from hn .hold, show tokens.dot.read cs = none from hn .dot]
  rfl

/-- Reads a token and then a length text, as commands with nothing else do. -/
def readTimed {α : Type} (tokens : LengthTokens) (p : Pattern) (command : LengthText → α) :
    Scanner α := fun cs =>
  (p.read cs).map fun (_, rest) =>
    let (length, rest) := LengthText.read tokens rest
    (command length, rest)

theorem readTimed_of_none {α : Type} {p : Pattern} {command : LengthText → α} {cs : List Char}
    (h : p.read cs = none) : tokens.readTimed p command cs = none := by
  rw [readTimed, h]
  rfl

end LengthTokens

open LengthTokens

/-- A length text that is written is read, if what comes next does not go on with it. -/
theorem LengthText.read_append {tokens : LengthTokens} (ha : Apart tokens.pattern) {t : LengthText}
    {text rest : List Char} (h : tokens.Written t text)
    (hr : Next (fun c => ¬tokens.Continues c) rest) :
    LengthText.read tokens (text ++ rest) = (t, rest) := by
  obtain ⟨numbers, suffixes, hn, hs, rfl⟩ := h
  -- what comes after the numbers is a suffix, or what comes after the length
  have hd : Next (fun c => c.isDigit = false) (suffixes ++ rest) :=
    hs.next ha (fun s c hc => ((ha.plain s.token).visible c hc).2)
      (hr.mono fun c hc => isDigit_of_not_continues hc)
  have hj : Next (· ∉ tokens.join.heads) (suffixes ++ rest) := by
    refine hs.next ha (fun s c hc hc' => ?_)
      (hr.mono fun c hc => not_mem_heads_of_not_continues hc .join)
    have heq : s.token = .join := ha.apart _ .join c hc hc'
    cases s <;> cases heq
  unfold LengthText.read
  rw [List.append_assoc, readNumbers_append ha hn hd hj]
  dsimp only
  rw [Scanner.many_append tokens.readSuffix_progresses
    (fun s a more hw => readSuffix_append ha s hw more) hs (readSuffix_eq_none ha hr)]

/-- A token and a length that are written are read. -/
theorem LengthTokens.readTimed_append {α : Type} {tokens : LengthTokens}
    (ha : Apart tokens.pattern) {p : Pattern} (hp : p.Plain) {command : LengthText → α}
    {t : LengthText} {a b rest : List Char} (hs : p.Spelt a) (h : tokens.Written t b)
    (hr : Next (fun c => ¬tokens.Continues c) rest) :
    tokens.readTimed p command (a ++ b ++ rest) = some (command t, rest) := by
  rw [List.append_assoc]
  obtain ⟨m, hm⟩ := Pattern.read_append hp hs (b ++ rest)
  rw [readTimed, hm, Option.map_some]
  dsimp only
  rw [LengthText.read_append ha h hr]

end MusicMacro
