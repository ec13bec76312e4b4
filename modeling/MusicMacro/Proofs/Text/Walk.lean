import MusicMacro.Proofs.Text.Loop

/-!
# Walking through a text

A cursor is walked through a text by reads, which may fail, and by passing over single characters.
Wherever it comes to, it stands between two characters of the text, and what lies ahead is the text
from there on.

* `Pattern.Accepts`, `AllDigits` — what a read accepts in front of a rest.
* `Scanner.Takes` — a scanner takes what is accepted behind the blanks, and nothing else.
* `Cursor.StandsIn` — the place of a cursor is a place of the text.
* `Cursor.Outcome` — what a read comes to: a token behind all blanks, or nothing at all.
* `Cursor.walk_reads` — after every walk a cursor stands in its text, and how it goes on from there.
-/

namespace MusicMacro

/-! ## What is accepted -/

/-- The pattern accepts a token in front of a rest: its spelling, the first of its spellings that
stands there, or what its regular expression matches. -/
def Pattern.Accepts : Pattern → List Char → List Char → Prop
  | literal t, token, _ => token = t
  | anyOf ts, token, rest =>
    ∃ before after, ts = before ++ token :: after ∧ ∀ t ∈ before, ¬t <+: token ++ rest
  | regex m, token, rest => m.find? (token ++ rest) = some (0, token.length)

/-- A token is all the digits in front of a rest. -/
def AllDigits (token rest : List Char) : Prop :=
  (∀ d ∈ token, d.isDigit) ∧ ∀ d ∈ rest.head?, d.isDigit = false

/-- Behind the blanks the scanner takes a token that is accepted, and it refuses only where there is
none. -/
def Scanner.Takes (r : Scanner (List Char)) (accepts : List Char → List Char → Prop) : Prop :=
  ∀ cs token rest, r cs = some (token, rest) ↔
    skipBlanks cs = token ++ rest ∧ token ≠ [] ∧ accepts token rest

namespace Pattern

variable {p : Pattern} {token rest : List Char}

/-- What is accepted has the length that the pattern finds, as far as the text goes. -/
theorem accepts_iff : p.Accepts token rest ↔
    ∃ n, p.headLength? (token ++ rest) = some n ∧ (token ++ rest).take n = token := by
  cases p with
  | literal t =>
    rw [Accepts, headLength?]
    simp only [Option.ite_none_right_eq_some, List.isPrefixOf_iff_prefix]
    constructor
    · rintro rfl
      exact ⟨token.length, ⟨List.prefix_append _ _, rfl⟩, List.take_left⟩
    · rintro ⟨n, ⟨hhead, hn⟩, htake⟩
      cases hn
      rw [← htake]
      exact (List.prefix_iff_eq_take.1 hhead).symm
  | anyOf ts =>
    simp only [Accepts, headLength?, Option.map_eq_some_iff, List.find?_eq_some_iff_append,
      List.isPrefixOf_iff_prefix, Bool.not_eq_true', ← Bool.not_eq_true]
    constructor
    · rintro ⟨before, after, hts, hfirst⟩
      exact ⟨token.length, ⟨token, ⟨List.prefix_append _ _, before, after, hts, hfirst⟩, rfl⟩,
        List.take_left⟩
    · rintro ⟨n, ⟨t, ⟨hhead, before, after, hts, hfirst⟩, rfl⟩, htake⟩
      rw [← List.prefix_iff_eq_take.1 hhead] at htake
      exact ⟨before, after, htake ▸ hts, hfirst⟩
  | regex m =>
    simp only [Accepts, headLength?, Matcher.headLength?_eq_some_iff]
    constructor
    · exact fun h => ⟨token.length, h, List.take_left⟩
    · rintro ⟨n, hn, htake⟩
      have hle : n ≤ (token ++ rest).length := (m.span hn).2
      have hlength : token.length = n := by rw [← htake, List.length_take, Nat.min_eq_left hle]
      rw [hlength]
      exact hn

theorem read_takes (p : Pattern) : Scanner.Takes p.read p.Accepts := by
  intro cs token rest
  rw [read_eq_some_iff, match_eq_ok_iff, accepts_iff]
  constructor
  · rintro ⟨n, hn, rfl, rfl, hne⟩
    rw [List.take_append_drop]
    exact ⟨rfl, hne, n, hn, rfl⟩
  · rintro ⟨hcs, hne, n, hn, htake⟩
    have hsplit := List.take_append_drop n (token ++ rest)
    rw [htake] at hsplit
    rw [hcs]
    exact ⟨n, hn, htake, List.append_cancel_left hsplit, hne⟩

end Pattern

theorem readDigits_takes : Scanner.Takes readDigits AllDigits := by
  intro cs token rest
  rw [readDigits_eq_some_iff]
  constructor
  · rintro ⟨hne, rfl, rfl⟩
    exact ⟨List.takeWhile_append_dropWhile.symm, hne, List.all_eq_true.1 List.all_takeWhile,
      head_dropWhile Char.isDigit _⟩
  · rintro ⟨hcs, hne, hdigits, hrest⟩
    obtain ⟨htake, hdrop⟩ := takeWhile_digits hdigits hrest
    rw [hcs]
    exact ⟨hne, htake.symm, hdrop.symm⟩

/-! ## Places in a text -/

theorem utf8ByteSize_ofList (cs : List Char) :
    (String.ofList cs).utf8ByteSize = utf8Length cs := by
  induction cs with
  | nil => rfl
  | cons c cs ih =>
    rw [String.ofList_cons, String.utf8ByteSize_append, ih, String.utf8ByteSize_singleton]
    rfl

namespace Cursor

/-- The cursor stands at a place of the text, which lies between two characters or at one of the
ends, and the rest is the text from there on. -/
def StandsIn (text : String) (c : Cursor) : Prop :=
  ∃ place : text.Pos, place.offset.byteIdx = c.position ∧
    (text.sliceFrom place).copy.toList = c.rest

variable {text : String} {c : Cursor}

/-- The characters before the cursor take as many bytes as its place says. -/
theorem standsIn_iff : c.StandsIn text ↔
    ∃ before, text.toList = before ++ c.rest ∧ c.position = utf8Length before := by
  constructor
  · rintro ⟨place, hposition, hrest⟩
    have hsplits := place.splits
    refine ⟨(text.sliceTo place).copy.toList, ?_, ?_⟩
    · rw [← hrest, ← String.toList_append, ← hsplits.eq_append]
    · rw [← hposition, hsplits.offset_eq_rawEndPos, ← utf8ByteSize_ofList, String.ofList_toList]
      rfl
  · rintro ⟨before, htext, hposition⟩
    have happend : text = String.ofList before ++ String.ofList c.rest := by
      rw [← String.ofList_append, ← htext, String.ofList_toList]
    have hend : (⟨c.position⟩ : String.Pos.Raw) = (String.ofList before).rawEndPos :=
      String.Pos.Raw.ext (hposition.trans (utf8ByteSize_ofList before).symm)
    have hvalid : String.Pos.Raw.IsValid text ⟨c.position⟩ :=
      String.Pos.Raw.isValid_iff_exists_append.2 ⟨_, _, happend, hend⟩
    have hsplits : (⟨⟨c.position⟩, hvalid⟩ : text.Pos).Splits (.ofList before) (.ofList c.rest) :=
      ⟨happend, hend⟩
    exact ⟨_, rfl, by rw [hsplits.copy_sliceFrom_eq, String.toList_ofList]⟩

theorem standsIn_start (text : String) : (start text.toList).StandsIn text :=
  standsIn_iff.2 ⟨[], rfl, rfl⟩

theorem StandsIn.advance (h : c.StandsIn text) {passed rest : List Char}
    (hrest : c.rest = passed ++ rest) : (c.advance rest).StandsIn text := by
  obtain ⟨before, htext, hposition⟩ := standsIn_iff.1 h
  rw [advance_append hrest]
  refine standsIn_iff.2 ⟨before ++ passed, ?_, ?_⟩
  · rw [htext, hrest, List.append_assoc]
  · rw [utf8Length_append, hposition]

/-! ## Reads -/

/-- What a read comes to: it takes a token that is accepted behind all blanks, and the cursor moves
behind the token; or there is no such token, and the cursor stays in front of the blanks. -/
inductive Outcome (accepts : List Char → List Char → Prop) (c : Cursor) :
    Option (List Char) × Cursor → Prop
  | found {blanks token rest : List Char} :
    c.rest = blanks ++ (token ++ rest) → (∀ b ∈ blanks, isBlank b) →
    (∀ d ∈ (token ++ rest).head?, isBlank d = false) → token ≠ [] → accepts token rest →
    Outcome accepts c (some token, ⟨c.position + utf8Length (blanks ++ token), rest⟩)
  | missed :
    (∀ blanks token rest, c.rest = blanks ++ (token ++ rest) → (∀ b ∈ blanks, isBlank b) →
      (∀ d ∈ (token ++ rest).head?, isBlank d = false) → token ≠ [] → ¬accepts token rest) →
    Outcome accepts c (none, c)

variable {accepts : List Char → List Char → Prop}

theorem outcome_scan {r : Scanner (List Char)} (hr : r.Takes accepts) (c : Cursor) :
    Outcome accepts c (c.scan r) := by
  cases h : r c.rest with
  | none =>
    rw [scan_of_none h]
    refine .missed fun blanks token rest happend hb hm hne haccepts => ?_
    have hskip : skipBlanks c.rest = token ++ rest := by
      rw [happend, skipBlanks_append_of_head hb hm]
    rw [(hr c.rest token rest).2 ⟨hskip, hne, haccepts⟩] at h
    cases h
  | some read =>
    obtain ⟨token, rest⟩ := read
    obtain ⟨hskip, hne, haccepts⟩ := (hr c.rest token rest).1 h
    have happend : c.rest = leadingBlanks c.rest ++ (token ++ rest) := by
      rw [← hskip, leadingBlanks_append_skipBlanks]
    rw [scan_of_some h, advance_append ((List.append_assoc ..).symm ▸ happend)]
    refine .found happend (fun _ => isBlank_of_mem_leadingBlanks) ?_ hne haccepts
    rw [← hskip]
    exact head_dropWhile isBlank c.rest

theorem StandsIn.outcome {answer : Option (List Char) × Cursor} (h : c.StandsIn text)
    (ho : Outcome accepts c answer) : answer.2.StandsIn text ∧ c.position ≤ answer.2.position := by
  cases ho with
  | missed _ => exact ⟨h, Nat.le_refl _⟩
  | @found blanks token rest happend _ _ _ _ =>
    have happend : c.rest = (blanks ++ token) ++ rest := by rw [happend, List.append_assoc]
    refine ⟨?_, Nat.le_add_right _ _⟩
    rw [← advance_append happend]
    exact h.advance happend

/-! ## Walks -/

/-- What can be asked of a cursor. -/
inductive Step
  | read (p : Pattern)
  | readOptional (p : Option Pattern)
  | readDigits
  | skip

/-- What is read in a step, and the cursor after it. -/
def step (c : Cursor) : Step → Option (List Char) × Cursor
  | .read p => c.read p
  | .readOptional p => c.readOptional p
  | .readDigits => c.readDigits
  | .skip => (none, c.skip)

/-- The cursor after some steps. -/
def walk (c : Cursor) (steps : List Step) : Cursor := steps.foldl (fun c s => (c.step s).2) c

/-- Every step leads to a place of the text, and none leads back. -/
theorem StandsIn.step (h : c.StandsIn text) (s : Step) :
    (c.step s).2.StandsIn text ∧ c.position ≤ (c.step s).2.position := by
  cases s with
  | read p => exact h.outcome (outcome_scan p.read_takes c)
  | readOptional p =>
    cases p with
    | none => exact ⟨h, Nat.le_refl _⟩
    | some p => exact h.outcome (outcome_scan p.read_takes c)
  | readDigits => exact h.outcome (outcome_scan readDigits_takes c)
  | skip =>
    cases hrest : c.rest with
    | nil =>
      have hskip : c.skip = c := by rw [skip, hrest]
      rw [Cursor.step, hskip]
      exact ⟨h, Nat.le_refl _⟩
    | cons d rest =>
      have happend : c.rest = [d] ++ rest := hrest
      rw [Cursor.step, skip_of_cons hrest]
      refine ⟨h.advance happend, ?_⟩
      rw [advance_append happend]
      exact Nat.le_add_right _ _

theorem StandsIn.walk (h : c.StandsIn text) (steps : List Step) : (c.walk steps).StandsIn text := by
  induction steps generalizing c with
  | nil => exact h
  | cons s steps ih => exact ih (h.step s).1

/-- After every walk through a text the cursor stands at a place of it, and from there no step leads
back. A read takes what is accepted behind all blanks, or it leaves the cursor in front of them. A
skip passes over one character unless the text is at its end. -/
theorem walk_reads (text : String) (steps : List Step) :
    let c := (start text.toList).walk steps
    c.StandsIn text ∧
      (∀ s, (c.step s).2.StandsIn text ∧ c.position ≤ (c.step s).2.position) ∧
      (∀ p, Outcome p.Accepts c (c.read p)) ∧
      (∀ p, c.readOptional (some p) = c.read p) ∧ c.readOptional none = (none, c) ∧
      Outcome AllDigits c c.readDigits ∧
      ((c.rest = [] ∧ c.skip = c) ∨
        ∃ d rest, c.rest = d :: rest ∧ c.skip = ⟨c.position + d.utf8Size, rest⟩) := by
  intro c
  have hc : c.StandsIn text := (standsIn_start text).walk steps
  refine ⟨hc, hc.step, fun p => outcome_scan p.read_takes c, fun _ => rfl, rfl,
    outcome_scan readDigits_takes c, ?_⟩
  cases hrest : c.rest with
  | nil => exact .inl ⟨rfl, by rw [skip, hrest]⟩
  | cons d rest => exact .inr ⟨d, rest, rfl, by rw [skip, hrest]⟩

/-- A blank and a letter of three bytes each, and two digits between them. -/
example : (start "　16ド".toList).walk [.read (.literal ['ド']), .readDigits] = ⟨5, ['ド']⟩ := by
  decide +kernel

end Cursor

end MusicMacro
