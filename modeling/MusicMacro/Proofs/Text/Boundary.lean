import Mathlib.Data.List.Find
import MusicMacro.Proofs.Text.Length

/-!
# Boundaries

A character that is neither a blank nor a digit and that stands in no spelling is a boundary of what
is read: nothing is read across it, and what is read in front of it is read as if the text ended
there.

* `Scanner.EndsAt` — a scanner reads nothing across a character.
* `EndsAt.map`, `EndsAt.orElse`, `EndsAt.firstOf`, `many_endsAt` — nor do scanners that are made of
  such.
* `Pattern.read_endsAt`, `readDigits_endsAt` — tokens and numbers.
* `LengthText.read_endsAt`, `LengthTokens.readTimed_endsAt` — length texts.
-/

namespace MusicMacro

variable {α β : Type} {x : Char}

/-- What is read, when more text follows after the rest. -/
def followedBy (more : List Char) (read : α × List Char) : α × List Char :=
  (read.1, read.2 ++ more)

/-! ## Scanners -/

namespace Scanner

/-- The scanner reads nothing across a character. -/
def EndsAt (x : Char) (r : Scanner α) : Prop :=
  ∀ cs more, r (cs ++ x :: more) = (r cs).map (followedBy (x :: more))

theorem EndsAt.map {r : Scanner α} (h : r.EndsAt x) (f : α → β) : (r.map f).EndsAt x := by
  intro cs more
  rw [Scanner.map, Scanner.map, h cs more, Option.map_map, Option.map_map]
  rfl

theorem EndsAt.orElse {r s : Scanner α} (hr : r.EndsAt x) (hs : s.EndsAt x) :
    (r.orElse s).EndsAt x := by
  intro cs more
  rw [Scanner.orElse, Scanner.orElse, hr cs more, hs cs more]
  cases r cs <;> rfl

theorem EndsAt.firstOf {rs : List (Scanner α)} (h : ∀ r ∈ rs, r.EndsAt x) :
    (firstOf rs).EndsAt x := by
  intro cs more
  induction rs with
  | nil => rfl
  | cons r rs ih =>
    have hr := h r List.mem_cons_self cs more
    have ih := ih fun r' hr' => h r' (List.mem_cons_of_mem _ hr')
    cases hc : r cs with
    | some a =>
      rw [hc] at hr
      rw [firstOf_cons_of_some hr, firstOf_cons_of_some hc]
      rfl
    | none =>
      rw [hc] at hr
      rw [firstOf_cons_of_none hr, firstOf_cons_of_none hc, ih]

theorem many_endsAt {r : Scanner α} (h : r.EndsAt x) (progress : r.Progresses)
    (cs more : List Char) :
    many r progress (cs ++ x :: more) = followedBy (x :: more) (many r progress cs) := by
  fun_induction many r progress cs with
  | case1 cs hn =>
    refine many_of_none progress ?_
    rw [h, hn]
    rfl
  | case2 cs a rest hs _ _ ih =>
    have hs' : r (cs ++ x :: more) = some (a, rest ++ x :: more) := by
      rw [h, hs]
      rfl
    rw [many_of_some progress hs', ih]
    rfl

/-- Nothing is read off the empty text. -/
theorem Progresses.nil {r : Scanner α} (h : r.Progresses) : r [] = none := by
  rw [Option.eq_none_iff_forall_not_mem]
  rintro ⟨a, rest⟩ hr
  exact absurd (h [] a rest hr) (Nat.not_lt_zero _)

end Scanner

/-! ## Blanks, tokens and numbers -/

theorem takeWhile_boundary {p : Char → Bool} (hp : p x = false) (cs more : List Char) :
    (cs ++ x :: more).takeWhile p = cs.takeWhile p := by
  rw [List.takeWhile_append]
  split
  · next h =>
    rw [List.takeWhile_cons, hp, (List.takeWhile_prefix p).eq_of_length h]
    exact List.append_nil _
  · rfl

theorem dropWhile_boundary {p : Char → Bool} (hp : p x = false) (cs more : List Char) :
    (cs ++ x :: more).dropWhile p = cs.dropWhile p ++ x :: more := by
  rw [List.dropWhile_append]
  split
  · next h =>
    rw [List.dropWhile_cons, hp, List.isEmpty_iff.1 h]
    rfl
  · rfl

theorem skipBlanks_boundary (hb : isBlank x = false) (cs more : List Char) :
    skipBlanks (cs ++ x :: more) = skipBlanks cs ++ x :: more := dropWhile_boundary hb cs more

/-- A word without a character stands at the head of a text if it does in front of the
character. -/
theorem isPrefixOf_boundary {t : List Char} (hx : x ∉ t) (cs more : List Char) :
    t.isPrefixOf (cs ++ x :: more) = t.isPrefixOf cs := by
  induction t generalizing cs with
  | nil => rfl
  | cons c t ih =>
    have hc : (c == x) = false := beq_false_of_ne fun h => hx (h ▸ List.mem_cons_self)
    cases cs with
    | nil => rw [List.nil_append, List.isPrefixOf_cons_cons, hc]; rfl
    | cons d cs =>
      rw [List.cons_append, List.isPrefixOf_cons_cons, List.isPrefixOf_cons_cons,
        ih (fun h => hx (List.mem_cons_of_mem _ h))]

namespace Pattern

/-- The pattern is given by spellings, and the character stands in none of them. -/
structure Lacks (p : Pattern) (x : Char) : Prop where
  listed : p.listed = true
  not_mem : ∀ t ∈ p.spellings, x ∉ t

variable {p : Pattern}

theorem Lacks.headLength? (hp : p.Lacks x) (cs more : List Char) :
    p.headLength? (cs ++ x :: more) = p.headLength? cs := by
  cases p with
  | literal t =>
    rw [Pattern.headLength?, Pattern.headLength?,
      isPrefixOf_boundary (hp.not_mem t (List.mem_singleton_self t))]
  | anyOf ts =>
    have hfind : ∀ t ∈ ts, t.isPrefixOf (cs ++ x :: more) = t.isPrefixOf cs :=
      fun t ht => isPrefixOf_boundary (hp.not_mem t ht) cs more
    rw [Pattern.headLength?, Pattern.headLength?, List.find?_congr hfind]
  | regex r => cases hp.listed

/-- No more is found than there is. -/
theorem headLength?_le (hp : p.listed = true) {cs : List Char} {n : Nat}
    (h : p.headLength? cs = some n) : n ≤ cs.length := by
  cases p with
  | literal t =>
    rw [Pattern.headLength?, Option.ite_none_right_eq_some] at h
    obtain ⟨hpre, hn⟩ := h
    cases hn
    exact (List.isPrefixOf_iff_prefix.1 hpre).length_le
  | anyOf ts =>
    obtain ⟨t, ht, rfl⟩ := Option.map_eq_some_iff.1 h
    have hpre := List.find?_some ht
    exact (List.isPrefixOf_iff_prefix.1 hpre).length_le
  | regex r => cases hp

theorem read_endsAt (hp : p.Lacks x) (hb : isBlank x = false) : Scanner.EndsAt x p.read := by
  intro cs more
  rw [read, read, skipBlanks_boundary hb]
  generalize skipBlanks cs = cs
  rw [match?, match?, hp.headLength?]
  cases h : p.headLength? cs with
  | none => rfl
  | some n =>
    have hn := headLength?_le hp.listed h
    dsimp only
    rw [List.take_append_of_le_length hn, List.drop_append_of_le_length hn]
    split <;> rfl

end Pattern

theorem readDigits_endsAt (hb : isBlank x = false) (hd : x.isDigit = false) :
    Scanner.EndsAt x readDigits := by
  intro cs more
  rw [readDigits, readDigits, skipBlanks_boundary hb, takeWhile_boundary hd, dropWhile_boundary hd]
  split <;> rfl

/-! ## Length texts -/

section

variable {tokens : LengthTokens} (hb : isBlank x = false) (hd : x.isDigit = false)
  (hp : ∀ t, (tokens.pattern t).Lacks x)

include hb hd hp

theorem LengthTokens.readNumbers_endsAt (cs more : List Char) :
    tokens.readNumbers (cs ++ x :: more) = followedBy (x :: more) (tokens.readNumbers cs) := by
  have hdigits := readDigits_endsAt hb hd
  have hjoin : Scanner.EndsAt x tokens.join.read := Pattern.read_endsAt (hp .join) hb
  fun_induction LengthTokens.readNumbers tokens cs with
  | case1 cs h =>
    refine readNumbers_of_none ?_
    rw [hdigits, h]
    rfl
  | case2 cs digits rest h _ hj =>
    have h' : readDigits (cs ++ x :: more) = some (digits, rest ++ x :: more) := by
      rw [hdigits, h]
      rfl
    have hj' : tokens.join.read (rest ++ x :: more) = none := by
      rw [hjoin, hj]
      rfl
    exact readNumbers_of_last h' hj'
  | case3 cs digits rest h _ join rest' hj _ _ ih =>
    have h' : readDigits (cs ++ x :: more) = some (digits, rest ++ x :: more) := by
      rw [hdigits, h]
      rfl
    have hj' : tokens.join.read (rest ++ x :: more) = some (join, rest' ++ x :: more) := by
      rw [hjoin, hj]
      rfl
    rw [readNumbers_of_join h' hj', ih]
    rfl

omit hd in
theorem LengthTokens.readSuffix_endsAt : Scanner.EndsAt x tokens.readSuffix :=
  ((Pattern.read_endsAt (hp .hold) hb).map _).orElse ((Pattern.read_endsAt (hp .dot) hb).map _)

theorem LengthText.read_endsAt (cs more : List Char) :
    LengthText.read tokens (cs ++ x :: more) =
      followedBy (x :: more) (LengthText.read tokens cs) := by
  rw [LengthText.read, LengthText.read, LengthTokens.readNumbers_endsAt hb hd hp]
  dsimp only [followedBy]
  rw [Scanner.many_endsAt (LengthTokens.readSuffix_endsAt hb hp)]
  rfl

theorem LengthTokens.readTimed_endsAt {p : Pattern} (h : Scanner.EndsAt x p.read)
    (command : LengthText → α) : Scanner.EndsAt x (tokens.readTimed p command) := by
  intro cs more
  rw [readTimed, readTimed, h]
  cases p.read cs with
  | none => rfl
  | some read =>
    dsimp only [Option.map_some, followedBy]
    rw [LengthText.read_endsAt hb hd hp]
    rfl

end

end MusicMacro
