import Mathlib.Algebra.Order.BigOperators.Group.List
import Mathlib.Data.List.Count
import Mathlib.Tactic.Linarith
import MusicMacro.Dialect
import MusicMacro.Number.Scalar
import MusicMacro.Proofs.NoteLength.Fraction
import MusicMacro.Proofs.Text.Length

/-!
# How long a written length is

Where every operation fits in 64 bits, the length that is written is known from the numbers and from
how many holds and dots there are: each hold is worth the base length, and all the dots together are
worth the base length less what the last of them is worth. So the order of holds and dots does not
matter.

* `baseValue` — the base length, by the numbers.
* `toRat_base`, `toRat_extend` — what the numbers and what the suffixes come to.
* `toRat_value` — both together.
* `LengthTokens.Joined`, `LengthText.read_joined` — numbers with a joining token behind the last of
  them are read as well.
* `LengthTokens.AreChars` — tokens that are single characters.
* `value_of_written` — the value of a text, and the place where it ends.
-/

namespace MusicMacro

open NoteLength (zero half addOverflow mulOverflow normal_add normal_mul normal_half normal_zero
  toRat_half toRat_zero toRat_nonneg eq_of_toRat)

/-! ## Operations that fit -/

namespace NoteLength

variable {a b : NoteLength}

theorem toRat_add (ha : a.Normal) (hb : b.Normal) (h : addOverflow a b = []) :
    (a + b).toRat = a.toRat + b.toRat := by
  unfold addOverflow at h
  cases hsum : add? a b with
  | none => simp [hsum] at h
  | some c =>
    rw [add_of_some hsum]
    exact toRat_of_add? ha hb hsum

theorem toRat_mul (ha : a.Normal) (hb : b.Normal) (h : mulOverflow a b = []) :
    (a * b).toRat = a.toRat * b.toRat := by
  unfold mulOverflow at h
  cases hproduct : mul? a b with
  | none => simp [hproduct] at h
  | some c =>
    rw [mul_of_some hproduct]
    exact toRat_of_mul? ha hb hproduct

end NoteLength

/-! ## The base length -/

/-- The numbers that write a length: from 1 to 2^64 - 1. -/
def countedNumbers (numbers : List Nat) : List Nat := numbers.filter fun g => 1 ≤ g ∧ g < 2 ^ 64

/-- The sum of the reciprocals of the numbers that write a length, or the default where there is
none. -/
def baseValue (numbers : List Nat) (default : NoteLength) : Rat :=
  if countedNumbers numbers = [] then default.toRat
  else ((countedNumbers numbers).map fun g : Nat => 1 / (g : Rat)).sum

namespace LengthText

theorem parts_eq (t : LengthText) : t.parts = (countedNumbers t.numbers).map (⟨1, ·⟩) := by
  have hgreatest : NoteLength.greatestTerm + 1 = 2 ^ 64 := rfl
  unfold parts countedNumbers
  induction t.numbers with
  | nil => rfl
  | cons g numbers ih =>
    by_cases hg : g = 0 ∨ NoteLength.greatestTerm < g
    · have hout : ¬(1 ≤ g ∧ g < 2 ^ 64) := by omega
      have hnone : NoteLength.ofNumber? g = none := if_pos hg
      rw [List.filterMap_cons_none hnone, List.filter_cons_of_neg (by simpa using hout), ih]
    · have hin : 1 ≤ g ∧ g < 2 ^ 64 := by omega
      have hsome : NoteLength.ofNumber? g = some ⟨1, g⟩ := if_neg hg
      rw [List.filterMap_cons_some hsome, List.filter_cons_of_pos (by simpa using hin), ih,
        List.map_cons]

/-- Lengths that are added up without an overflow come to the sum of their fractions. -/
theorem toRat_sum {lengths : List NoteLength} (h : ∀ a ∈ lengths, a.Normal) {sum : NoteLength}
    (hs : sum.Normal) (ho : sumOverflows sum lengths = []) :
    (lengths.foldl (· + ·) sum).toRat = sum.toRat + (lengths.map NoteLength.toRat).sum := by
  induction lengths generalizing sum with
  | nil => simp
  | cons a lengths ih =>
    obtain ⟨ha, hmore⟩ := List.forall_mem_cons.1 h
    obtain ⟨hadd, hrest⟩ := List.append_eq_nil_iff.1 ho
    rw [List.foldl_cons, ih hmore (normal_add hs ha) hrest, NoteLength.toRat_add hs ha hadd,
      List.map_cons, List.sum_cons, add_assoc]

theorem toRat_base {t : LengthText} {default : NoteLength}
    (ho : sumOverflows zero t.parts = []) :
    (t.base default).toRat = baseValue t.numbers default := by
  have hparts : ∀ a ∈ t.parts, a.Normal := fun a ha => normal_of_mem_parts ha
  have hnormal := t.normal_parts
  have hsum : (t.parts.foldl (· + ·) zero).toRat =
      ((countedNumbers t.numbers).map fun g : Nat => 1 / (g : Rat)).sum := by
    rw [toRat_sum hparts normal_zero ho, toRat_zero, zero_add, parts_eq, List.map_map]
    apply congrArg List.sum
    apply List.map_congr_left
    intro g _
    simp [NoteLength.toRat]
  unfold base baseValue
  dsimp only
  by_cases hn : countedNumbers t.numbers = []
  · have hempty : t.parts = [] := by rw [parts_eq, hn, List.map_nil]
    rw [if_pos hn, hempty]
    rfl
  · -- what a number writes is positive
    have hpos : 0 < ((countedNumbers t.numbers).map fun g : Nat => 1 / (g : Rat)).sum := by
      apply List.sum_pos _ _ (by simpa using hn)
      intro x hx
      obtain ⟨g, hg, rfl⟩ := List.mem_map.1 hx
      have hg : 1 ≤ g ∧ g < 2 ^ 64 := by simpa using (List.mem_filter.1 hg).2
      exact div_pos one_pos (Nat.cast_pos.2 hg.1)
    have hzero : (t.parts.foldl (· + ·) zero).isZero = false := by
      rw [Bool.eq_false_iff, Ne, NoteLength.isZero_iff hnormal, hsum]
      exact hpos.ne'
    rw [if_neg hn, hzero, ← hsum]
    rfl

/-! ## Holds and dots -/

/-- What suffixes add without an overflow: for each hold the base length, and for the dots what the
first of them adds, half of it, and so on. -/
theorem toRat_extend {base : NoteLength} (hb : base.Normal) (suffixes : List Suffix)
    {length dot : NoteLength} (hl : length.Normal) (hd : dot.Normal)
    (ho : extendOverflows base suffixes length dot = []) :
    (extend base suffixes length dot).toRat =
      length.toRat + suffixes.count .hold * base.toRat +
        dot.toRat * (2 - 2 / 2 ^ suffixes.count .dot) := by
  -- the length so far and the next dot both go on, so the sum is stated for any two of them
  induction suffixes generalizing length dot with
  | nil => simp [extend]
  | cons s suffixes ih =>
    cases s with
    | hold =>
      obtain ⟨hadd, hrest⟩ := List.append_eq_nil_iff.1 ho
      rw [extend, ih (normal_add hl hb) hd hrest, NoteLength.toRat_add hl hb hadd,
        List.count_cons_self, List.count_cons_of_ne (by decide)]
      push_cast
      ring
    | dot =>
      obtain ⟨hops, hrest⟩ := List.append_eq_nil_iff.1 ho
      obtain ⟨hadd, hmul⟩ := List.append_eq_nil_iff.1 hops
      rw [extend, ih (normal_add hl hd) (normal_mul hd normal_half) hrest,
        NoteLength.toRat_add hl hd hadd, NoteLength.toRat_mul hd normal_half hmul, toRat_half,
        List.count_cons_self, List.count_cons_of_ne (by decide), pow_succ]
      field_simp
      ring

/-- The value of a length text without an overflow. -/
theorem toRat_value {t : LengthText} {default : NoteLength} (hd : default.Normal)
    (ho : t.overflows default = []) :
    (t.value default).toRat = baseValue t.numbers default *
      (2 + t.suffixes.count .hold - 1 / 2 ^ t.suffixes.count .dot) := by
  obtain ⟨hops, hextend⟩ := List.append_eq_nil_iff.1 ho
  obtain ⟨hsum, hmul⟩ := List.append_eq_nil_iff.1 hops
  have hb := t.normal_base hd
  unfold value
  dsimp only
  rw [toRat_extend hb _ hb (normal_mul hb normal_half) hextend,
    NoteLength.toRat_mul hb normal_half hmul, toRat_half, toRat_base hsum]
  ring

/-- Without an overflow the order of the suffixes does not matter. -/
theorem value_perm {ns : List Nat} {ss ss' : List Suffix} (hp : ss.Perm ss') {default : NoteLength}
    (hd : default.Normal) (ho : (LengthText.mk ns ss).overflows default = [])
    (ho' : (LengthText.mk ns ss').overflows default = []) :
    (LengthText.mk ns ss').value default = (LengthText.mk ns ss).value default := by
  apply eq_of_toRat (normal_value _ hd) (normal_value _ hd)
  rw [toRat_value hd ho, toRat_value hd ho', hp.count_eq, hp.count_eq]

end LengthText

/-! ## A joining token behind the last number -/

namespace LengthTokens

variable {tokens : LengthTokens}

/-- The text writes numbers with the joining token between them, and perhaps once more behind the
last of them. -/
inductive Joined (tokens : LengthTokens) : List Nat → List Char → Prop
  | numbers {ns : List Nat} {text : List Char} : tokens.Numbers ns text → Joined tokens ns text
  | trailing {ns : List Nat} {text join : List Char} : ns ≠ [] → tokens.Numbers ns text →
    tokens.join.Spelt join → Joined tokens ns (text ++ join)

/-- A joining token with no number behind it belongs to the numbers in front of it. -/
theorem readNumbers_append_join (ha : Apart tokens.pattern) {ns : List Nat}
    {text join rest : List Char} (h : tokens.Numbers ns text) (hne : ns ≠ [])
    (hj : tokens.join.Spelt join) (hd : Next (fun c => c.isDigit = false) rest) :
    tokens.readNumbers (text ++ join ++ rest) = (ns, rest) := by
  have hplain : tokens.join.Plain := ha.plain .join
  have hdigit : ∀ {a : List Char}, tokens.join.Spelt a → ∀ more,
      Next (fun c => c.isDigit = false) (a ++ more) :=
    fun ha more => ha.next hplain (fun c hc => (hplain.visible c hc).2) more
  induction h with
  | none => exact absurd rfl hne
  | one hn =>
    rw [List.append_assoc]
    obtain ⟨digits, hr, hv⟩ := readDigits_append hn (hdigit hj rest)
    obtain ⟨m, hm⟩ := Pattern.read_append hplain hj rest
    rw [readNumbers_of_join hr hm, readNumbers_of_none (readDigits_eq_none hd), hv]
  | more hn hjoin _ ih =>
    have ih := ih (List.cons_ne_nil _ _)
    rw [List.append_assoc, List.append_assoc, List.append_assoc]
    obtain ⟨digits, hr, hv⟩ := readDigits_append hn (hdigit hjoin _)
    obtain ⟨m, hm⟩ := Pattern.read_append hplain hjoin _
    rw [readNumbers_of_join hr hm, ← List.append_assoc, ih, hv]

end LengthTokens

open LengthTokens

/-- Numbers and suffixes are read, also if a joining token stands behind the last number. -/
theorem LengthText.read_joined {tokens : LengthTokens} (ha : Apart tokens.pattern) {ns : List Nat}
    {ss : List Suffix} {numbers suffixes rest : List Char} (hn : tokens.Joined ns numbers)
    (hs : tokens.Suffixes ss suffixes) (hr : Next (fun c => ¬tokens.Continues c) rest) :
    LengthText.read tokens (numbers ++ suffixes ++ rest) = (⟨ns, ss⟩, rest) := by
  cases hn with
  | numbers hn => exact read_append ha ⟨numbers, suffixes, hn, hs, rfl⟩ hr
  | trailing hne hn hj =>
    have hd : Next (fun c => c.isDigit = false) (suffixes ++ rest) :=
      hs.next ha (fun s c hc => ((ha.plain s.token).visible c hc).2)
        (hr.mono fun c hc => isDigit_of_not_continues hc)
    unfold LengthText.read
    rw [List.append_assoc, readNumbers_append_join ha hn hne hj hd]
    dsimp only
    rw [Scanner.many_append tokens.readSuffix_progresses
      (fun s a more hw => readSuffix_append ha s hw more) hs (readSuffix_eq_none ha hr)]

/-! ## Tokens of one character -/

namespace LengthTokens

/-- Each token is the one character that is given for it. -/
def AreChars (tokens : LengthTokens) (c : LengthToken → Char) : Prop :=
  ∀ t, (tokens.pattern t).listed = true ∧ (tokens.pattern t).spellings = [[c t]]

variable {tokens : LengthTokens} {c : LengthToken → Char}

theorem AreChars.heads (h : tokens.AreChars c) (t : LengthToken) :
    (tokens.pattern t).heads = [c t] := by
  unfold Pattern.heads
  rw [(h t).2]
  rfl

/-- Different characters that are neither blanks nor digits are tokens that are told apart. -/
theorem AreChars.apart (h : tokens.AreChars c) (hc : Function.Injective c)
    (hv : ∀ t, isBlank (c t) = false ∧ (c t).isDigit = false) : Apart tokens.pattern := by
  refine ⟨fun t => ?_, fun t u x ht hu => ?_⟩
  · have hspellings := (h t).2
    refine ⟨(h t).1, ?_, ?_, ?_⟩
    · simp [hspellings]
    · simp [hspellings]
    · intro x hx
      rw [h.heads, List.mem_singleton] at hx
      rw [hx]
      exact hv t
  · rw [h.heads, List.mem_singleton] at ht hu
    exact hc (ht.symm.trans hu)

theorem AreChars.not_continues (h : tokens.AreChars c) {x : Char} (hd : x.isDigit = false)
    (hx : ∀ t, x ≠ c t) : ¬tokens.Continues x := by
  rintro (hdigit | ⟨t, ht⟩)
  · rw [hd] at hdigit
    cases hdigit
  · rw [h.heads, List.mem_singleton] at ht
    exact hx t ht

end LengthTokens

/-- Numbers, of any size and with the joining token between them and perhaps behind them, and then
holds and dots in any order, are read up to the last token. If no operation overflows they are worth
the base length times `2 + holds - 2 ^ -dots`, in lowest terms, so the order of the holds and the
dots does not matter. -/
theorem LengthText.value_of_written {tokens : LengthTokens} {c : LengthToken → Char}
    (ht : tokens.AreChars c) (hc : Function.Injective c)
    (hv : ∀ t, isBlank (c t) = false ∧ (c t).isDigit = false) {ns : List Nat} {ss : List Suffix}
    {numbers suffixes rest : List Char} (hn : tokens.Joined ns numbers)
    (hs : tokens.Suffixes ss suffixes)
    (hr : Next (fun x => x.isDigit = false ∧ ∀ t, x ≠ c t) rest) {default : NoteLength}
    (hd : default.Normal) :
    LengthText.read tokens (numbers ++ suffixes ++ rest) = (⟨ns, ss⟩, rest) ∧
    ((LengthText.mk ns ss).overflows default = [] →
      ((LengthText.mk ns ss).value default).Normal ∧
      ((LengthText.mk ns ss).value default).toRat =
        baseValue ns default * (2 + ss.count .hold - 1 / 2 ^ ss.count .dot) ∧
      ∀ ss' suffixes', ss.Perm ss' → tokens.Suffixes ss' suffixes' →
        (LengthText.mk ns ss').overflows default = [] →
        LengthText.read tokens (numbers ++ suffixes' ++ rest) = (⟨ns, ss'⟩, rest) ∧
        (LengthText.mk ns ss').value default = (LengthText.mk ns ss).value default) := by
  have ha := ht.apart hc hv
  have hnext := hr.mono fun x hx => ht.not_continues hx.1 hx.2
  refine ⟨read_joined ha hn hs hnext, fun ho => ⟨normal_value _ hd, toRat_value hd ho, ?_⟩⟩
  intro ss' suffixes' hp hs' ho'
  exact ⟨read_joined ha hn hs' hnext, value_perm hp hd ho ho'⟩

/-- The character of each standard token. -/
def standardChar : LengthToken → Char
  | .hold => '^'
  | .dot => '.'
  | .join => '&'

/-- The numbers 4, 0 and 8 with a joining token behind them, and two dots around a hold: three
eighths, three sixteenths, three eighths and three thirty-seconds. -/
theorem LengthText.value_of_written_dotted :
    let tokens := Dialect.standardLength
    let numbers := [' ', '4', ' ', '&', '0', '&', '0', '8', '&']
    LengthText.read tokens (numbers ++ ['.', ' ', '^', '.'] ++ [' ', 'd']) =
      (⟨[4, 0, 8], [.dot, .hold, .dot]⟩, [' ', 'd']) ∧
    LengthText.read tokens (numbers ++ ['^', '.', '.'] ++ [' ', 'd']) =
      (⟨[4, 0, 8], [.hold, .dot, .dot]⟩, [' ', 'd']) ∧
    (LengthText.mk [4, 0, 8] [.dot, .hold, .dot]).value .quarter = ⟨33, 32⟩ ∧
    (LengthText.mk [4, 0, 8] [.hold, .dot, .dot]).value .quarter = ⟨33, 32⟩ ∧
    (33 / 32 : Rat) = baseValue [4, 0, 8] .quarter * (2 + 1 - 1 / 2 ^ 2) := by
  intro tokens numbers
  have ht : tokens.AreChars standardChar := by
    intro t
    cases t <;> exact ⟨rfl, rfl⟩
  have hc : Function.Injective standardChar := by
    intro t u h
    cases t <;> cases u <;> first | rfl | exact absurd h (by decide)
  have hv : ∀ t, isBlank (standardChar t) = false ∧ (standardChar t).isDigit = false := by
    intro t
    cases t <;> decide
  have hspelt : ∀ t, (tokens.pattern t).Spelt [standardChar t] := by
    intro t
    refine ⟨[], [standardChar t], nofun, ?_, rfl⟩
    rw [(ht t).2]
    exact List.mem_singleton_self _
  have hnumbers : tokens.Numbers [4, 0, 8]
      ([' ', '4'] ++ [' ', '&'] ++ (['0'] ++ ['&'] ++ ['0', '8'])) :=
    .more ⟨[' '], ['4'], List.all_eq_true.1 rfl, nofun, List.all_eq_true.1 rfl, rfl, rfl⟩
      ⟨[' '], ['&'], List.all_eq_true.1 rfl, List.mem_singleton_self _, rfl⟩
      (.more ⟨[], ['0'], nofun, nofun, List.all_eq_true.1 rfl, rfl, rfl⟩ (hspelt .join)
        (.one ⟨[], ['0', '8'], nofun, nofun, List.all_eq_true.1 rfl, rfl, rfl⟩))
  have hn : tokens.Joined [4, 0, 8] numbers :=
    .trailing (List.cons_ne_nil 4 [0, 8]) hnumbers (hspelt .join)
  have hs : tokens.Suffixes [.dot, .hold, .dot] (['.'] ++ ([' ', '^'] ++ (['.'] ++ []))) :=
    .cons (hspelt .dot)
      (.cons ⟨[' '], ['^'], List.all_eq_true.1 rfl, List.mem_singleton_self _, rfl⟩
        (.cons (hspelt .dot) .nil))
  have hs' : tokens.Suffixes [.hold, .dot, .dot] (['^'] ++ (['.'] ++ (['.'] ++ []))) :=
    .cons (hspelt .hold) (.cons (hspelt .dot) (.cons (hspelt .dot) .nil))
  have hr : Next (fun x => x.isDigit = false ∧ ∀ t, x ≠ standardChar t) [' ', 'd'] := by
    refine .cons_of_blank rfl (.cons_of_not_blank rfl ⟨rfl, fun t => ?_⟩ _)
    cases t <;> decide
  have hd : NoteLength.quarter.Normal := by decide
  obtain ⟨hread, hvalue⟩ := value_of_written ht hc hv hn hs hr hd
  obtain ⟨-, hrat, hperm⟩ := hvalue (by decide)
  have hlength : (LengthText.mk [4, 0, 8] [.dot, .hold, .dot]).value .quarter = ⟨33, 32⟩ := by
    decide
  obtain ⟨hread', hsame⟩ := hperm _ _ (.swap ..) hs' (by decide)
  refine ⟨hread, hread', hlength, hsame.trans hlength, ?_⟩
  rw [hlength] at hrat
  exact hrat

end MusicMacro
