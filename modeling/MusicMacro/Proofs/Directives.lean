import Mathlib.Algebra.Group.Nat.Defs
import MusicMacro.Directive
import MusicMacro.Proofs.Text.Spelling

/-!
# Written directives

Directives that are written one after the other are read off again, one by one, and the text behind
them is left over to the last character. A directive is a word in any letter case, with blanks in
front of it and digits behind it, as the directive has them. Digits are read as far as they go, so
that no digit may follow a directive that ends in them. What is left over begins with no directive.

* `Directive.Written` — how a directive is written.
* `dropWord?_eq_some_iff`, `splitDigits?_eq_some_iff`, `read_eq_some_iff` — what is read is what is
  written.
* `read_eq_none_iff` — no directive is read if and only if none is written.
* `strip_append`, `written_of_strip` — lists of directives, written and read.
* `exists_each_written_iff` — which lists can be written.
* `strip_round_trip` — all of this together.
-/

namespace MusicMacro

/-! ## Letter case -/

/-- Only the letters from A to Z have another lower case. -/
theorem toLower_eq_self {c : Char} (h : c.toNat < 65 ∨ 90 < c.toNat) : c.toLower = c := by
  unfold Char.toLower
  apply dif_neg
  simp only [UInt32.le_iff_toNat_le, ge_iff_le]
  rintro ⟨hlow, hhigh⟩
  change 65 ≤ c.toNat at hlow
  change c.toNat ≤ 90 at hhigh
  omega

theorem toLower_of_isBlank {c : Char} (h : isBlank c = true) : c.toLower = c := by
  apply toLower_eq_self
  simp only [isBlank, blankRanges, List.any_cons, List.any_nil, Bool.or_eq_true, Bool.and_eq_true,
    decide_eq_true_eq, Bool.false_eq_true, or_false] at h
  omega

theorem toLower_of_isDigit {c : Char} (h : c.isDigit = true) : c.toLower = c := by
  apply toLower_eq_self
  simp only [Char.isDigit, Bool.and_eq_true, decide_eq_true_eq, UInt32.le_iff_toNat_le] at h
  have hnine : c.toNat ≤ 57 := h.2
  omega

namespace Directive

/-! ## Writing -/

/-- How a directive is written: with any blanks in front, in any letter case, and with digits, zeros
in front of them included. Numbers that do not fit stand for tempo zero and for the greatest
index. -/
inductive Written : Directive → List Char → Prop
  | tempo {blanks word digits : List Char} :
    (∀ c ∈ blanks, isBlank c) → word.map Char.toLower = ['t'] →
      digits ≠ [] → (∀ c ∈ digits, c.isDigit) →
      Written (.tempo (if digitsValue digits < 2 ^ 32 then digitsValue digits else 0))
        (blanks ++ (word ++ digits))
  | instrument {blanks word digits : List Char} :
    (∀ c ∈ blanks, isBlank c) → word.map Char.toLower = ['@'] →
      digits ≠ [] → (∀ c ∈ digits, c.isDigit) →
      Written (.instrument (if digitsValue digits < 2 ^ 64 then digitsValue digits else 2 ^ 64 - 1))
        (blanks ++ (word ++ digits))
  | percussion {blanks word : List Char} :
    (∀ c ∈ blanks, isBlank c) → word.map Char.toLower = ['@', 'd', 'r', 'u', 'm'] →
      Written .percussion (blanks ++ word)

/-- Whether a directive ends in digits. -/
def endsInDigits : Directive → Bool
  | .tempo _ | .instrument _ => true
  | .percussion => false

/-- The text begins with no digit, if the directive in front of it ends in digits. -/
def EndsBefore (d : Directive) (rest : List Char) : Prop :=
  d.endsInDigits = true → ∀ c ∈ rest.head?, c.isDigit = false

theorem tempoOfDigits_eq (digits : List Char) : tempoOfDigits digits =
    .tempo (if digitsValue digits < 2 ^ 32 then digitsValue digits else 0) := by
  have hgreatest : greatestTempo = 2 ^ 32 - 1 := rfl
  unfold tempoOfDigits
  congr 1
  split <;> split <;> omega

theorem instrumentOfDigits_eq (digits : List Char) : instrumentOfDigits digits =
    .instrument (if digitsValue digits < 2 ^ 64 then digitsValue digits else 2 ^ 64 - 1) := by
  have hgreatest : greatestIndex = 2 ^ 64 - 1 := rfl
  unfold instrumentOfDigits
  congr 1
  split <;> omega

/-- A word begins with a character that is neither a blank nor a digit, if in lower case it does. -/
theorem exists_head {w : Char} {word lower : List Char} (h : word.map Char.toLower = w :: lower)
    (hb : isBlank w = false) (hd : w.isDigit = false) :
    ∃ c more, word = c :: more ∧ isBlank c = false ∧ c.isDigit = false := by
  obtain ⟨c, more, rfl, rfl, -⟩ := List.map_eq_cons_iff.1 h
  refine ⟨c, more, rfl, ?_, ?_⟩
  · rw [Bool.eq_false_iff] at hb ⊢
    exact fun h => hb ((toLower_of_isBlank h).symm ▸ h)
  · rw [Bool.eq_false_iff] at hd ⊢
    exact fun h => hd ((toLower_of_isDigit h).symm ▸ h)

/-- Behind its blanks a directive begins with a character that is no digit. -/
theorem Written.exists_eq {d : Directive} {text : List Char} (h : Written d text) :
    ∃ blanks c more, text = blanks ++ c :: more ∧ (∀ b ∈ blanks, isBlank b) ∧
      isBlank c = false ∧ c.isDigit = false := by
  cases h with
  | @tempo blanks word digits hb hw _ _ =>
    obtain ⟨c, more, rfl, hc⟩ := exists_head hw (by decide) (by decide)
    exact ⟨blanks, c, more ++ digits, by simp, hb, hc⟩
  | @instrument blanks word digits hb hw _ _ =>
    obtain ⟨c, more, rfl, hc⟩ := exists_head hw (by decide) (by decide)
    exact ⟨blanks, c, more ++ digits, by simp, hb, hc⟩
  | @percussion blanks word hb hw =>
    obtain ⟨c, more, rfl, hc⟩ := exists_head hw (by decide) (by decide)
    exact ⟨blanks, c, more, rfl, hb, hc⟩

/-- No directive begins with a digit. -/
theorem Written.head_not_digit {d : Directive} {text : List Char} (h : Written d text)
    (rest : List Char) : ∀ c ∈ (text ++ rest).head?, c.isDigit = false := by
  obtain ⟨blanks, c, more, rfl, hb, -, hc⟩ := h.exists_eq
  cases blanks with
  | nil =>
    rintro _ ⟨⟩
    exact hc
  | cons b blanks =>
    rintro _ ⟨⟩
    rw [Bool.eq_false_iff]
    intro hd
    have hblank := hb b List.mem_cons_self
    rw [isBlank_of_isDigit hd] at hblank
    cases hblank

/-! ## Reading -/

theorem dropWord?_eq_some_iff {lower cs rest : List Char} :
    dropWord? lower cs = some rest ↔
      ∃ word, word.map Char.toLower = lower ∧ cs = word ++ rest := by
  induction lower generalizing cs with
  | nil => simp [dropWord?, eq_comm]
  | cons w lower ih =>
    cases cs with
    | nil => simp [dropWord?]
    | cons c cs =>
      rw [dropWord?, Option.ite_none_right_eq_some, ih]
      constructor
      · rintro ⟨hc, word, hword, rfl⟩
        exact ⟨c :: word, by rw [List.map_cons, hc, hword], rfl⟩
      · rintro ⟨word, hword, heq⟩
        obtain ⟨c, word, rfl, hc, hmore⟩ := List.map_eq_cons_iff.1 hword
        obtain ⟨rfl, rfl⟩ := List.cons.inj heq
        exact ⟨hc, word, hmore, rfl⟩

/-- A word is not found where the first character is another one. -/
theorem dropWord?_eq_none {w v : Char} {lower other word : List Char}
    (hw : word.map Char.toLower = w :: lower) (hne : w ≠ v) (more : List Char) :
    dropWord? (v :: other) (word ++ more) = none := by
  obtain ⟨c, word, rfl, rfl, -⟩ := List.map_eq_cons_iff.1 hw
  exact if_neg hne

/-- The word of percussion is not found where digits follow its first character. -/
theorem dropWord?_drum_eq_none {word digits : List Char} (hw : word.map Char.toLower = ['@'])
    (hne : digits ≠ []) (hd : ∀ c ∈ digits, c.isDigit) (more : List Char) :
    dropWord? ['@', 'd', 'r', 'u', 'm'] (word ++ (digits ++ more)) = none := by
  obtain ⟨c, rfl, hc⟩ := List.map_eq_singleton_iff.1 hw
  obtain ⟨e, digits, rfl⟩ := List.exists_cons_of_ne_nil hne
  have hdigit := hd e List.mem_cons_self
  have he : e.toLower ≠ 'd' := by
    rw [toLower_of_isDigit hdigit]
    rintro rfl
    exact absurd hdigit (by decide)
  simp [dropWord?, hc, he]

theorem splitDigits?_eq_some_iff {cs digits rest : List Char} :
    splitDigits? cs = some (digits, rest) ↔
      digits ≠ [] ∧ (∀ c ∈ digits, c.isDigit) ∧ cs = digits ++ rest ∧
        ∀ c ∈ rest.head?, c.isDigit = false := by
  simp only [splitDigits?, Option.ite_none_left_eq_some]
  constructor
  · rintro ⟨hne, heq⟩
    obtain ⟨rfl, rfl⟩ := Prod.mk.inj (Option.some.inj heq)
    exact ⟨by simpa using hne, List.all_eq_true.1 List.all_takeWhile,
      List.takeWhile_append_dropWhile.symm, head_dropWhile Char.isDigit cs⟩
  · rintro ⟨hne, hd, rfl, hrest⟩
    obtain ⟨htake, hdrop⟩ := takeWhile_digits hd hrest
    rw [htake, hdrop]
    exact ⟨by simpa using hne, rfl⟩

/-- Reads a word and then digits. -/
theorem readNumbered_eq_some_iff {lower cs rest : List Char} {f : List Char → Directive}
    {d : Directive} :
    (do
      let (digits, rest) ← splitDigits? (← dropWord? lower cs)
      return (f digits, rest) : Option (Directive × List Char)) = some (d, rest) ↔
      ∃ word digits, word.map Char.toLower = lower ∧ digits ≠ [] ∧ (∀ c ∈ digits, c.isDigit) ∧
        f digits = d ∧ cs = word ++ digits ++ rest ∧ ∀ c ∈ rest.head?, c.isDigit = false := by
  simp only [bind, Option.bind_eq_some_iff]
  constructor
  · rintro ⟨_, hdrop, ⟨digits, _⟩, hsplit, hd⟩
    obtain ⟨rfl, rfl⟩ := Prod.mk.inj (Option.some.inj hd)
    obtain ⟨word, hword, rfl⟩ := dropWord?_eq_some_iff.1 hdrop
    obtain ⟨hne, hdigits, rfl, hends⟩ := splitDigits?_eq_some_iff.1 hsplit
    exact ⟨word, digits, hword, hne, hdigits, rfl, (List.append_assoc ..).symm, hends⟩
  · rintro ⟨word, digits, hword, hne, hdigits, rfl, rfl, hends⟩
    exact ⟨digits ++ rest, dropWord?_eq_some_iff.2 ⟨word, hword, List.append_assoc ..⟩,
      (digits, rest), splitDigits?_eq_some_iff.2 ⟨hne, hdigits, rfl, hends⟩, rfl⟩

/-- What is read is written there. -/
theorem written_of_read {cs rest : List Char} {d : Directive} (h : read cs = some (d, rest)) :
    ∃ text, cs = text ++ rest ∧ Written d text ∧ d.EndsBefore rest := by
  have hblanks : ∀ c ∈ leadingBlanks cs, isBlank c := fun _ => isBlank_of_mem_leadingBlanks
  -- what the readers say is about the text behind the blanks
  suffices hbehind : ∃ text, skipBlanks cs = text ++ rest ∧ Written d (leadingBlanks cs ++ text) ∧
      d.EndsBefore rest by
    obtain ⟨text, heq, hw, hends⟩ := hbehind
    exact ⟨_, by rw [List.append_assoc, ← heq, leadingBlanks_append_skipBlanks], hw, hends⟩
  obtain ⟨r, hr, heq⟩ := List.exists_of_findSome?_eq_some h
  simp only [List.mem_cons, List.not_mem_nil, or_false] at hr
  rcases hr with rfl | rfl | rfl
  · obtain ⟨_, hdrop, hd⟩ := Option.map_eq_some_iff.1 heq
    obtain ⟨rfl, rfl⟩ := Prod.mk.inj hd
    obtain ⟨word, hword, hcs⟩ := dropWord?_eq_some_iff.1 hdrop
    exact ⟨word, hcs, .percussion hblanks hword, nofun⟩
  · obtain ⟨word, digits, hword, hne, hdigits, rfl, hcs, hends⟩ := readNumbered_eq_some_iff.1 heq
    rw [tempoOfDigits_eq]
    exact ⟨word ++ digits, hcs, .tempo hblanks hword hne hdigits, fun _ => hends⟩
  · obtain ⟨word, digits, hword, hne, hdigits, rfl, hcs, hends⟩ := readNumbered_eq_some_iff.1 heq
    rw [instrumentOfDigits_eq]
    exact ⟨word ++ digits, hcs, .instrument hblanks hword hne hdigits, fun _ => hends⟩

/-- Behind its blanks a word stands at the head of the text. -/
theorem skipBlanks_word {blanks word lower : List Char} {w : Char} (hb : ∀ c ∈ blanks, isBlank c)
    (hw : word.map Char.toLower = w :: lower) (hvisible : isBlank w = false ∧ w.isDigit = false)
    (more : List Char) : skipBlanks (blanks ++ (word ++ more)) = word ++ more := by
  obtain ⟨c, word, rfl, hc, -⟩ := exists_head hw hvisible.1 hvisible.2
  rw [skipBlanks_append hb, List.cons_append, skipBlanks_cons_of_not_blank hc]

/-- What is written is read, unless digits follow that belong to it. -/
theorem read_of_written {text rest : List Char} {d : Directive} (h : Written d text)
    (hends : d.EndsBefore rest) : read (text ++ rest) = some (d, rest) := by
  show Scanner.firstOf _ (skipBlanks (text ++ rest)) = _
  cases h with
  | @tempo blanks word digits hb hw hne hd =>
    have hdrum : dropWord? ['@', 'd', 'r', 'u', 'm'] (word ++ (digits ++ rest)) = none :=
      dropWord?_eq_none hw (by decide) _
    have hread := readNumbered_eq_some_iff.2
      ⟨word, digits, hw, hne, hd, tempoOfDigits_eq digits, (List.append_assoc ..).symm, hends rfl⟩
    rw [List.append_assoc, List.append_assoc, skipBlanks_word hb hw (by decide),
      Scanner.firstOf_cons_of_none (by rw [hdrum]; rfl), Scanner.firstOf_cons_of_some hread]
  | @instrument blanks word digits hb hw hne hd =>
    have hdrum := dropWord?_drum_eq_none hw hne hd rest
    have htempo : dropWord? ['t'] (word ++ (digits ++ rest)) = none :=
      dropWord?_eq_none hw (by decide) _
    have hread := readNumbered_eq_some_iff.2
      ⟨word, digits, hw, hne, hd, instrumentOfDigits_eq digits, (List.append_assoc ..).symm,
        hends rfl⟩
    rw [List.append_assoc, List.append_assoc, skipBlanks_word hb hw (by decide),
      Scanner.firstOf_cons_of_none (by rw [hdrum]; rfl),
      Scanner.firstOf_cons_of_none (by rw [htempo]; rfl), Scanner.firstOf_cons_of_some hread]
  | @percussion blanks word hb hw =>
    rw [List.append_assoc, skipBlanks_word hb hw (by decide)]
    apply Scanner.firstOf_cons_of_some
    rw [dropWord?_eq_some_iff.2 ⟨word, hw, rfl⟩]
    rfl

/-- A directive is read if and only if it is written, up to its last digit. -/
theorem read_eq_some_iff {cs rest : List Char} {d : Directive} :
    read cs = some (d, rest) ↔ ∃ text, cs = text ++ rest ∧ Written d text ∧ d.EndsBefore rest := by
  constructor
  · exact written_of_read
  · rintro ⟨text, rfl, hw, hends⟩
    exact read_of_written hw hends

/-- The digits behind a directive belong to it, or to another one of its kind. -/
theorem Written.exists_ends {d : Directive} {text : List Char} (h : Written d text)
    (rest : List Char) :
    ∃ d' text' rest', text ++ rest = text' ++ rest' ∧ Written d' text' ∧ d'.EndsBefore rest' := by
  obtain ⟨more, after, rfl, hmore, hends⟩ : ∃ more after, rest = more ++ after ∧
      (∀ c ∈ more, c.isDigit) ∧ ∀ c ∈ after.head?, c.isDigit = false :=
    ⟨rest.takeWhile Char.isDigit, rest.dropWhile Char.isDigit,
      List.takeWhile_append_dropWhile.symm, List.all_eq_true.1 List.all_takeWhile,
      head_dropWhile Char.isDigit rest⟩
  cases h with
  | @tempo blanks word digits hb hw hne hd =>
    have hmore := List.forall_mem_append.2 ⟨hd, hmore⟩
    exact ⟨_, _, after, by simp only [List.append_assoc],
      .tempo hb hw (List.append_ne_nil_of_left_ne_nil hne more) hmore, fun _ => hends⟩
  | @instrument blanks word digits hb hw hne hd =>
    have hmore := List.forall_mem_append.2 ⟨hd, hmore⟩
    exact ⟨_, _, after, by simp only [List.append_assoc],
      .instrument hb hw (List.append_ne_nil_of_left_ne_nil hne more) hmore, fun _ => hends⟩
  | percussion hb hw => exact ⟨.percussion, _, more ++ after, rfl, .percussion hb hw, nofun⟩

/-- No directive is read if and only if none is written. -/
theorem read_eq_none_iff {cs : List Char} :
    read cs = none ↔ ∀ d text rest, Written d text → cs ≠ text ++ rest := by
  constructor
  · rintro hnone d text rest hw rfl
    obtain ⟨d', text', rest', heq, hw', hends⟩ := hw.exists_ends rest
    rw [heq, read_of_written hw' hends] at hnone
    cases hnone
  · intro h
    rw [Option.eq_none_iff_forall_not_mem]
    rintro ⟨d, rest⟩ hread
    obtain ⟨text, heq, hw, -⟩ := written_of_read hread
    exact h d text rest hw heq

/-! ## Lists of directives -/

/-- The text begins with no digit, if the last of the directives in front of it ends in digits. -/
def ListEndsBefore (ds : List Directive) (rest : List Char) : Prop :=
  ∀ d ∈ ds.getLast?, d.EndsBefore rest

theorem strip_of_none {cs : List Char} (h : read cs = none) : strip cs = ([], cs) :=
  Scanner.many_of_none read_progresses h

theorem strip_of_some {cs rest : List Char} {d : Directive} (h : read cs = some (d, rest)) :
    strip cs = (d :: (strip rest).1, (strip rest).2) :=
  Scanner.many_of_some read_progresses h

/-- Directives that are written one after the other are read one after the other. -/
theorem strip_append {ds : List Directive} {text rest : List Char} (h : Each Written ds text)
    (hends : ListEndsBefore ds rest) (hrest : read rest = none) :
    strip (text ++ rest) = (ds, rest) := by
  induction h with
  | nil => exact strip_of_none hrest
  | @cons d ds text more hd hds ih =>
    have hread : read (text ++ (more ++ rest)) = some (d, more ++ rest) := by
      apply read_of_written hd
      cases hds with
      | nil => exact hends d rfl
      | cons hnext _ =>
        intro _
        rw [List.append_assoc]
        exact hnext.head_not_digit _
    have hlast : ListEndsBefore ds rest := by
      intro d' hd'
      cases ds with
      | nil => cases hd'
      | cons => exact hends d' (by rwa [List.getLast?_cons_cons])
    rw [List.append_assoc, strip_of_some hread, ih hlast]

/-- What is stripped off is written at the head of the text, and no directive can be read behind
it. -/
theorem written_of_strip (cs : List Char) :
    read (strip cs).2 = none ∧ ∃ text, cs = text ++ (strip cs).2 ∧
      Each Written (strip cs).1 text ∧ ListEndsBefore (strip cs).1 (strip cs).2 := by
  unfold strip
  fun_induction Scanner.many read read_progresses cs with
  | case1 cs h =>
    refine ⟨h, [], rfl, .nil, ?_⟩
    intro d hd
    cases hd
  | case2 cs d rest h _ more ih =>
    obtain ⟨hnone, text, heq, hds, hlast⟩ := ih
    obtain ⟨head, rfl, hd, hends⟩ := written_of_read h
    refine ⟨hnone, head ++ text, ?_, .cons hd hds, ?_⟩
    · rw [List.append_assoc, ← heq]
    · intro d' hd'
      cases hm : more.1 with
      | nil =>
        -- nothing is stripped off behind this directive
        rw [hm] at hds hd'
        cases hds
        cases hd'
        rwa [heq] at hends
      | cons d'' ds =>
        rw [hm, List.getLast?_cons_cons, ← hm] at hd'
        exact hlast d' hd'

theorem strip_fst_eq_nil_iff {cs : List Char} : (strip cs).1 = [] ↔ read cs = none := by
  cases h : read cs with
  | none => simp [strip_of_none h]
  | some p => simp [strip_of_some h]

/-! ## Directives that can be written -/

/-- The number of the directive fits: a tempo in 32 bits, an index in 64 bits. -/
def InRange : Directive → Prop
  | .tempo t => t < 2 ^ 32
  | .instrument n => n < 2 ^ 64
  | .percussion => True

theorem Written.inRange {d : Directive} {text : List Char} (h : Written d text) : d.InRange := by
  cases h with
  | tempo =>
    show ite _ _ _ < 2 ^ 32
    split <;> omega
  | instrument =>
    show ite _ _ _ < 2 ^ 64
    split <;> omega
  | percussion => trivial

/-- Every directive in range can be written. -/
theorem exists_written {d : Directive} (h : d.InRange) : ∃ text, Written d text := by
  cases d with
  | tempo t =>
    obtain ⟨-, blanks, digits, hb, hne, hd, rfl, -⟩ := exists_numeral t
    have hfits : digitsValue digits < 2 ^ 32 := h
    have hw := @Written.tempo blanks ['t'] digits hb (by decide) hne hd
    rw [if_pos hfits] at hw
    exact ⟨_, hw⟩
  | instrument n =>
    obtain ⟨-, blanks, digits, hb, hne, hd, rfl, -⟩ := exists_numeral n
    have hfits : digitsValue digits < 2 ^ 64 := h
    have hw := @Written.instrument blanks ['@'] digits hb (by decide) hne hd
    rw [if_pos hfits] at hw
    exact ⟨_, hw⟩
  | percussion => exact ⟨_, @Written.percussion [] ['@', 'd', 'r', 'u', 'm'] nofun (by decide)⟩

theorem exists_each_written_iff {ds : List Directive} :
    (∃ text, Each Written ds text) ↔ ∀ d ∈ ds, d.InRange := by
  constructor
  · rintro ⟨text, h⟩
    induction h with
    | nil => exact nofun
    | cons hd _ ih => exact List.forall_mem_cons.2 ⟨hd.inRange, ih⟩
  · intro h
    induction ds with
    | nil => exact ⟨[], .nil⟩
    | cons d ds ih =>
      obtain ⟨hd, hds⟩ := List.forall_mem_cons.1 h
      obtain ⟨text, hw⟩ := exists_written hd
      obtain ⟨more, hmore⟩ := ih hds
      exact ⟨text ++ more, .cons hw hmore⟩

/-- Directives that are written one after the other, in front of a text that begins with none, are
stripped off, and that text is left over. Whatever a text is, directives are stripped off that are
written at its head, and what is left over begins with none, so that no more is stripped off. Every
list of directives in range can be written. -/
theorem strip_round_trip :
    (∀ (ds : List Directive) (text rest : List Char), Each Written ds text →
      (strip rest).1 = [] → ListEndsBefore ds rest → strip (text ++ rest) = (ds, rest)) ∧
    (∀ cs : List Char,
      (strip cs).2 <:+ cs ∧
      (∃ text, cs = text ++ (strip cs).2 ∧ Each Written (strip cs).1 text ∧
        ListEndsBefore (strip cs).1 (strip cs).2) ∧
      (read (strip cs).2 = none ∧
        ∀ d text rest, Written d text → (strip cs).2 ≠ text ++ rest) ∧
      strip (strip cs).2 = ([], (strip cs).2)) ∧
    ∀ ds : List Directive, (∃ text, Each Written ds text) ↔ ∀ d ∈ ds, d.InRange := by
  refine ⟨fun ds text rest h hrest hends =>
      strip_append h hends (strip_fst_eq_nil_iff.1 hrest), fun cs => ?_,
    fun ds => exists_each_written_iff⟩
  obtain ⟨hnone, text, heq, hwritten⟩ := written_of_strip cs
  exact ⟨⟨text, heq.symm⟩, ⟨text, heq, hwritten⟩, ⟨hnone, read_eq_none_iff.1 hnone⟩,
    strip_of_none hnone⟩

/-- Mixed letter case, a zero in front, blanks of other scripts, and numbers that do not fit. -/
theorem strip_round_trip_mixed :
    strip ((['T', '0', '9'] ++ (['\u3000', '@', 'D', 'r', 'U', 'm'] ++ (['@', '2'] ++
        ((' ' :: 't' :: List.replicate 10 '9') ++ (('\u00a0' :: '@' :: List.replicate 20 '9') ++
          []))))) ++ [' ', 'c', 't', '1']) =
      ([.tempo 9, .percussion, .instrument 2, .tempo 0, .instrument 18446744073709551615],
        [' ', 'c', 't', '1']) := by
  have htempo : Written (.tempo 9) ['T', '0', '9'] :=
    @Written.tempo [] ['T'] ['0', '9'] nofun rfl nofun (List.all_eq_true.1 rfl)
  have hpercussion : Written .percussion ['\u3000', '@', 'D', 'r', 'U', 'm'] :=
    @Written.percussion ['\u3000'] ['@', 'D', 'r', 'U', 'm'] (List.all_eq_true.1 rfl) rfl
  have hinstrument : Written (.instrument 2) ['@', '2'] :=
    @Written.instrument [] ['@'] ['2'] nofun rfl nofun (List.all_eq_true.1 rfl)
  have hzero : Written (.tempo 0) (' ' :: 't' :: List.replicate 10 '9') :=
    @Written.tempo [' '] ['t'] (List.replicate 10 '9') (List.all_eq_true.1 rfl) rfl nofun
      (List.all_eq_true.1 rfl)
  have hgreatest : Written (.instrument 18446744073709551615)
      ('\u00a0' :: '@' :: List.replicate 20 '9') :=
    @Written.instrument ['\u00a0'] ['@'] (List.replicate 20 '9') (List.all_eq_true.1 rfl) rfl nofun
      (List.all_eq_true.1 rfl)
  have hrest : (strip [' ', 'c', 't', '1']).1 = [] := by decide +kernel
  refine strip_round_trip.1 _ _ _
    (.cons htempo (.cons hpercussion (.cons hinstrument (.cons hzero (.cons hgreatest .nil)))))
    hrest ?_
  rintro d - - _ ⟨⟩
  rfl

end Directive

end MusicMacro
