import MusicMacro.Proofs.Text.Length

/-!
# What is left of a text

Whatever is read, the end of the text is left as it was: no scanner changes a character or adds one.
So a character that a text lacks is never met in the middle of it.

* `Scanner.Consumes` — a scanner leaves the end of the text.
* `Consumes.map`, `Consumes.orElse`, `Consumes.firstOf`, `many_suffix` — so do scanners that are
  made of such.
* `Pattern.read_consumes`, `readDigits_consumes`, `LengthText.read_suffix`,
  `LengthTokens.readTimed_consumes` — tokens, numbers and length texts.
-/

namespace MusicMacro

variable {α β : Type}

/-! ## Scanners -/

namespace Scanner

/-- What the scanner leaves is the end of the text. -/
def Consumes (r : Scanner α) : Prop :=
  ∀ cs a rest, r cs = some (a, rest) → rest <:+ cs

theorem Consumes.map {r : Scanner α} (h : r.Consumes) (f : α → β) : (r.map f).Consumes := by
  intro cs b rest hr
  obtain ⟨a, ha, -⟩ := map_eq_some.1 hr
  exact h cs a rest ha

theorem Consumes.orElse {r s : Scanner α} (hr : r.Consumes) (hs : s.Consumes) :
    (r.orElse s).Consumes := by
  intro cs a rest h
  rcases Option.or_eq_some_iff.1 h with h | ⟨-, h⟩
  · exact hr cs a rest h
  · exact hs cs a rest h

theorem Consumes.firstOf {rs : List (Scanner α)} (h : ∀ r ∈ rs, r.Consumes) :
    (firstOf rs).Consumes := by
  intro cs a rest hs
  obtain ⟨r, hr, hs⟩ := List.exists_of_findSome?_eq_some hs
  exact h r hr cs a rest hs

theorem many_suffix {r : Scanner α} (h : r.Consumes) (progress : r.Progresses) (cs : List Char) :
    (many r progress cs).2 <:+ cs := by
  fun_induction many r progress cs with
  | case1 => exact List.suffix_rfl
  | case2 cs a rest hs _ _ ih => exact ih.trans (h cs a rest hs)

end Scanner

/-! ## Tokens and numbers -/

theorem skipBlanks_suffix (cs : List Char) : skipBlanks cs <:+ cs := List.dropWhile_suffix _

theorem Pattern.read_consumes (p : Pattern) : Scanner.Consumes p.read := by
  intro cs m rest h
  have hm := append_of_match (read_eq_some_iff.1 h)
  exact (hm ▸ List.suffix_append m rest).trans (skipBlanks_suffix cs)

theorem readDigits_consumes : Scanner.Consumes readDigits := by
  intro cs digits rest h
  obtain ⟨-, -, rfl⟩ := readDigits_eq_some_iff.1 h
  exact (List.dropWhile_suffix _).trans (skipBlanks_suffix cs)

theorem LengthTokens.readNumbers_suffix (tokens : LengthTokens) (cs : List Char) :
    (tokens.readNumbers cs).2 <:+ cs := by
  fun_induction LengthTokens.readNumbers tokens cs with
  | case1 => exact List.suffix_rfl
  | case2 cs digits rest h => exact readDigits_consumes cs digits rest h
  | case3 cs digits rest h _ join rest' hj _ _ ih =>
    exact ih.trans
      ((tokens.join.read_consumes rest join rest' hj).trans (readDigits_consumes cs digits rest h))

theorem LengthTokens.readSuffix_consumes (tokens : LengthTokens) :
    Scanner.Consumes tokens.readSuffix :=
  (tokens.hold.read_consumes.map _).orElse (tokens.dot.read_consumes.map _)

theorem LengthText.read_suffix (tokens : LengthTokens) (cs : List Char) :
    (LengthText.read tokens cs).2 <:+ cs :=
  (Scanner.many_suffix tokens.readSuffix_consumes _ _).trans (tokens.readNumbers_suffix cs)

theorem LengthTokens.readTimed_consumes (tokens : LengthTokens) (p : Pattern)
    (command : LengthText → α) : Scanner.Consumes (tokens.readTimed p command) := by
  intro cs _ rest h
  obtain ⟨⟨m, after⟩, hm, heq⟩ := Option.map_eq_some_iff.1 h
  cases heq
  exact (LengthText.read_suffix tokens after).trans (p.read_consumes cs m after hm)

end MusicMacro
