import MusicMacro.Proofs.Text.Places
import MusicMacro.Text.Cursor

/-!
# Loops over a text

Everything that is read more than once is read in a loop over a cursor. A round of a loop reads on,
or leaves the loop. Nothing about a round alone makes a loop end; it ends because a round that goes
on has passed over something.

* `Cursor.Passes` — a cursor has moved over a part of its text.
* `Loop`, `Loop.Runs` — a loop, and its runs, which may not exist.
* `Loop.Ends` — every round that goes on passes over something, and from every place the loop runs
  to its end, with at most one round for each character.
* `Scanner.loop_ends`, `LengthTokens.numberLoop_ends`, `Scanner.sweepLoop_ends` — repeating a
  scanner, numbers that are joined, and the sweep over a whole text.
* `Scanner.length_sweep_le` — a sweep finds no more values than there are visible characters.
-/

namespace MusicMacro

variable {α : Type}

/-! ## Places -/

/-- The number of characters of a text that are no blanks. -/
def visibleLength (cs : List Char) : Nat := cs.countP fun c => !isBlank c

theorem utf8Length_append (cs cs' : List Char) :
    utf8Length (cs ++ cs') = utf8Length cs + utf8Length cs' := by
  induction cs with
  | nil => exact (Nat.zero_add _).symm
  | cons c cs ih =>
    show c.utf8Size + utf8Length (cs ++ cs') = c.utf8Size + utf8Length cs + utf8Length cs'
    omega

theorem utf8Length_pos {cs : List Char} (h : cs ≠ []) : 0 < utf8Length cs := by
  cases cs with
  | nil => exact absurd rfl h
  | cons c cs => exact Nat.add_pos_left c.utf8Size_pos _

namespace Cursor

/-- The cursor has moved over a part of its text that is not empty. -/
def Passes (c c' : Cursor) : Prop :=
  ∃ passed, passed ≠ [] ∧ c.rest = passed ++ c'.rest ∧ c'.position = c.position + utf8Length passed

variable {c c' : Cursor}

theorem Passes.position_lt (h : c.Passes c') : c.position < c'.position := by
  obtain ⟨passed, hne, -, hposition⟩ := h
  have := utf8Length_pos hne
  omega

theorem Passes.length_lt (h : c.Passes c') : c'.rest.length < c.rest.length := by
  obtain ⟨passed, hne, hrest, -⟩ := h
  have := List.length_pos_iff.2 hne
  rw [hrest, List.length_append]
  omega

theorem advance_append {passed rest : List Char} (h : c.rest = passed ++ rest) :
    c.advance rest = ⟨c.position + utf8Length passed, rest⟩ := by
  rw [advance, h, utf8Length_append, Nat.add_sub_cancel]

/-- A cursor that moves to a shorter end of its text passes over what was in front. -/
theorem passes_advance {rest : List Char} (h : rest <:+ c.rest)
    (hlt : rest.length < c.rest.length) : c.Passes (c.advance rest) := by
  obtain ⟨passed, hpassed⟩ := h
  rw [advance_append hpassed.symm]
  refine ⟨passed, ?_, hpassed.symm, rfl⟩
  rintro rfl
  rw [← hpassed] at hlt
  exact Nat.lt_irrefl _ hlt

theorem advance_self (c : Cursor) : c.advance c.rest = c :=
  advance_append (List.nil_append c.rest).symm

theorem advance_advance {rest rest' : List Char} (h : rest <:+ c.rest) (h' : rest' <:+ rest) :
    (c.advance rest).advance rest' = c.advance rest' := by
  obtain ⟨a, ha⟩ := h
  obtain ⟨b, rfl⟩ := h'
  have hboth : c.rest = (a ++ b) ++ rest' := by rw [← ha, List.append_assoc]
  rw [advance_append ha.symm, advance_append rfl, advance_append hboth, utf8Length_append,
    Nat.add_assoc]

theorem skip_of_cons {d : Char} {rest : List Char} (h : c.rest = d :: rest) :
    c.skip = c.advance rest := by
  have hd : c.rest = [d] ++ rest := h
  rw [advance_append hd, skip, h]
  rfl

theorem scan_of_none {s : Scanner α} (h : s c.rest = none) : c.scan s = (none, c) := by
  rw [scan, h]

theorem scan_of_some {s : Scanner α} {a : α} {rest : List Char} (h : s c.rest = some (a, rest)) :
    c.scan s = (some a, c.advance rest) := by
  rw [scan, h]

end Cursor

/-! ## Loops -/

/-- What a round of a loop yields, where it leaves the cursor, and whether the loop goes on. -/
structure Round (α : Type) where
  values : List α
  cursor : Cursor
  again : Bool

/-- A loop over a text, given by its round. -/
abbrev Loop (α : Type) := Cursor → Round α

namespace Loop

variable {l : Loop α} {c c' : Cursor} {n : Nat} {values : List α}

/-- The loop starts at a cursor, goes on for a number of rounds, and is left with values and another
cursor. -/
inductive Runs (l : Loop α) : Cursor → Nat → List α → Cursor → Prop
  | leave {c c' : Cursor} {values : List α} :
    l c = ⟨values, c', false⟩ → Runs l c 0 values c'
  | again {c after c' : Cursor} {n : Nat} {values more : List α} :
    l c = ⟨values, after, true⟩ → Runs l after n more c' → Runs l c (n + 1) (values ++ more) c'

/-- A round of the loop leaves it, or passes over something. -/
def Advances (l : Loop α) : Prop :=
  ∀ c values after, l c = ⟨values, after, true⟩ → c.Passes after

/-- There are no more rounds than there are characters. -/
theorem Runs.rounds_le (h : l.Runs c n values c') (ha : l.Advances) : n ≤ c.rest.length := by
  induction h with
  | leave _ => exact Nat.zero_le _
  | again hagain _ ih =>
    have := (ha _ _ _ hagain).length_lt
    omega

/-- Every round leaves the loop or passes over something, and from every place the loop runs to its
end, after no more rounds than there are characters. It yields and leaves what `f` says. -/
structure Ends (l : Loop α) (f : List Char → List α × List Char) : Prop where
  advances : l.Advances
  runs : ∀ c, ∃ n ≤ c.rest.length, l.Runs c n (f c.rest).1 (c.advance (f c.rest).2)

theorem ends_of_runs {f : List Char → List α × List Char} (ha : l.Advances)
    (h : ∀ c, ∃ n, l.Runs c n (f c.rest).1 (c.advance (f c.rest).2)) : l.Ends f := by
  refine ⟨ha, fun c => ?_⟩
  obtain ⟨n, hn⟩ := h c
  exact ⟨n, hn.rounds_le ha, hn⟩

end Loop

open Loop

/-! ## Repeating a scanner -/

namespace Scanner

/-- Reads a value and goes on, or leaves the loop. -/
def loop (r : Scanner α) : Loop α := fun c =>
  match c.scan r with
  | (some a, after) => ⟨[a], after, true⟩
  | (none, after) => ⟨[], after, false⟩

variable {r : Scanner α}

theorem loop_of_none {c : Cursor} (h : r c.rest = none) : r.loop c = ⟨[], c, false⟩ := by
  rw [loop, Cursor.scan_of_none h]

theorem loop_of_some {c : Cursor} {a : α} {rest : List Char} (h : r c.rest = some (a, rest)) :
    r.loop c = ⟨[a], c.advance rest, true⟩ := by
  rw [loop, Cursor.scan_of_some h]

theorem loop_advances (progress : r.Progresses) (hc : r.Consumes) : r.loop.Advances := by
  intro c values after hround
  cases h : r c.rest with
  | none =>
    rw [loop_of_none h] at hround
    cases hround
  | some read =>
    rw [loop_of_some h] at hround
    cases hround
    exact Cursor.passes_advance (hc _ _ _ h) (progress _ _ _ h)

theorem loop_ends (progress : r.Progresses) (hc : r.Consumes) : r.loop.Ends (many r progress) := by
  refine ends_of_runs (loop_advances progress hc) fun c => ?_
  generalize hcs : c.rest = cs
  induction cs using many.induct r progress generalizing c with
  | case1 cs hn =>
    subst hcs
    rw [many_of_none progress hn, c.advance_self]
    exact ⟨0, .leave (loop_of_none hn)⟩
  | case2 cs a rest hs _ ih =>
    subst hcs
    obtain ⟨n, hn⟩ := ih (c.advance rest) rfl
    rw [Cursor.advance_advance (hc _ _ _ hs) (many_suffix hc progress rest)] at hn
    rw [many_of_some progress hs]
    exact ⟨n + 1, .again (loop_of_some hs) hn⟩

end Scanner

/-! ## Numbers -/

namespace LengthTokens

/-- Reads a number, and goes on if the joining token comes next. -/
def numberLoop (tokens : LengthTokens) : Loop Nat := fun c =>
  match c.readDigits with
  | (none, c) => ⟨[], c, false⟩
  | (some digits, c) =>
    match c.read tokens.join with
    | (none, c) => ⟨[digitsValue digits], c, false⟩
    | (some _, c) => ⟨[digitsValue digits], c, true⟩

variable {tokens : LengthTokens} {c : Cursor} {digits rest join more : List Char}

theorem numberLoop_of_none (h : readDigits c.rest = none) :
    tokens.numberLoop c = ⟨[], c, false⟩ := by
  rw [numberLoop, Cursor.readDigits, Cursor.scan_of_none h]

theorem numberLoop_of_last (h : readDigits c.rest = some (digits, rest))
    (hj : tokens.join.read rest = none) :
    tokens.numberLoop c = ⟨[digitsValue digits], c.advance rest, false⟩ := by
  rw [numberLoop, Cursor.readDigits, Cursor.scan_of_some h]
  dsimp only
  have hjoin : tokens.join.read (c.advance rest).rest = none := hj
  rw [Cursor.read, Cursor.scan_of_none hjoin]

theorem numberLoop_of_join (h : readDigits c.rest = some (digits, rest))
    (hj : tokens.join.read rest = some (join, more)) :
    tokens.numberLoop c = ⟨[digitsValue digits], c.advance more, true⟩ := by
  have hmore := readDigits_consumes _ _ _ h
  rw [numberLoop, Cursor.readDigits, Cursor.scan_of_some h]
  dsimp only
  have hjoin : tokens.join.read (c.advance rest).rest = some (join, more) := hj
  rw [Cursor.read, Cursor.scan_of_some hjoin,
    Cursor.advance_advance hmore (tokens.join.read_consumes _ _ _ hj)]

theorem numberLoop_advances (tokens : LengthTokens) : tokens.numberLoop.Advances := by
  intro c values after hround
  cases h : readDigits c.rest with
  | none =>
    rw [numberLoop_of_none h] at hround
    cases hround
  | some read =>
    obtain ⟨digits, rest⟩ := read
    cases hj : tokens.join.read rest with
    | none =>
      rw [numberLoop_of_last h hj] at hround
      cases hround
    | some read' =>
      obtain ⟨join, more⟩ := read'
      rw [numberLoop_of_join h hj] at hround
      cases hround
      have hrest := readDigits_progresses _ _ _ h
      have hmore := tokens.join.read_progresses _ _ _ hj
      exact Cursor.passes_advance
        ((tokens.join.read_consumes _ _ _ hj).trans (readDigits_consumes _ _ _ h))
        (hmore.trans hrest)

theorem numberLoop_ends (tokens : LengthTokens) : tokens.numberLoop.Ends tokens.readNumbers := by
  refine ends_of_runs tokens.numberLoop_advances fun c => ?_
  generalize hcs : c.rest = cs
  induction cs using readNumbers.induct tokens generalizing c with
  | case1 cs hn =>
    subst hcs
    rw [readNumbers_of_none hn, c.advance_self]
    exact ⟨0, .leave (numberLoop_of_none hn)⟩
  | case2 cs digits rest hs _ hj =>
    subst hcs
    rw [readNumbers_of_last hs hj]
    exact ⟨0, .leave (numberLoop_of_last hs hj)⟩
  | case3 cs digits rest hs _ join more hj _ ih =>
    subst hcs
    obtain ⟨n, hn⟩ := ih (c.advance more) rfl
    have hmore := (tokens.join.read_consumes _ _ _ hj).trans (readDigits_consumes _ _ _ hs)
    rw [Cursor.advance_advance hmore (tokens.readNumbers_suffix more)] at hn
    rw [readNumbers_of_join hs hj]
    exact ⟨n + 1, .again (numberLoop_of_join hs hj) hn⟩

end LengthTokens

/-! ## Sweeping a text -/

namespace Scanner

/-- Reads a value if there is one. A round that has not moved the cursor passes over a character.
The loop is left at the end of the text. -/
def sweepLoop (r : Scanner α) : Loop α := fun c =>
  if c.atEnd then ⟨[], c, false⟩
  else
    let (found, after) := c.scan r
    ⟨found.toList, if after.position = c.position then after.skip else after, true⟩

variable {r : Scanner α} {c : Cursor}

theorem sweepLoop_of_nil (h : c.rest = []) : r.sweepLoop c = ⟨[], c, false⟩ := by
  rw [sweepLoop, Cursor.atEnd, h]
  rfl

theorem sweepLoop_of_some (progress : r.Progresses) (hc : r.Consumes) {a : α} {rest : List Char}
    (h : r c.rest = some (a, rest)) : r.sweepLoop c = ⟨[a], c.advance rest, true⟩ := by
  have hpasses : c.Passes (c.advance rest) :=
    Cursor.passes_advance (hc _ _ _ h) (progress _ _ _ h)
  have hend : c.atEnd = false := by
    rw [Cursor.atEnd, List.isEmpty_eq_false_iff]
    exact List.ne_nil_of_length_pos (Nat.zero_lt_of_lt hpasses.length_lt)
  rw [sweepLoop, hend, Cursor.scan_of_some h]
  dsimp only
  rw [if_neg hpasses.position_lt.ne', if_neg Bool.false_ne_true]
  rfl

theorem sweepLoop_of_none {d : Char} {rest : List Char} (hd : c.rest = d :: rest)
    (h : r c.rest = none) : r.sweepLoop c = ⟨[], c.advance rest, true⟩ := by
  rw [sweepLoop, Cursor.atEnd, hd, Cursor.scan_of_none h]
  dsimp only
  rw [if_pos rfl, Cursor.skip_of_cons hd]
  rfl

theorem sweepLoop_advances (progress : r.Progresses) (hc : r.Consumes) :
    r.sweepLoop.Advances := by
  intro c values after hround
  cases hd : c.rest with
  | nil =>
    rw [sweepLoop_of_nil hd] at hround
    cases hround
  | cons d rest =>
    cases h : r c.rest with
    | none =>
      rw [sweepLoop_of_none hd h] at hround
      cases hround
      refine Cursor.passes_advance ?_ ?_
      · rw [hd]
        exact List.suffix_cons d rest
      · rw [hd]
        exact Nat.lt_succ_self _
    | some read =>
      rw [sweepLoop_of_some progress hc h] at hround
      cases hround
      exact Cursor.passes_advance (hc _ _ _ h) (progress _ _ _ h)

/-- The sweep ends at the end of the text. -/
theorem sweepLoop_ends (progress : r.Progresses) (hc : r.Consumes) :
    r.sweepLoop.Ends fun cs => (sweep r progress cs, []) := by
  refine ends_of_runs (sweepLoop_advances progress hc) fun c => ?_
  dsimp only
  generalize hcs : c.rest = cs
  induction cs using sweep.induct r progress generalizing c with
  | case1 =>
    rw [sweep_nil, ← hcs, c.advance_self]
    exact ⟨0, .leave (sweepLoop_of_nil hcs)⟩
  | case2 d cs a rest hs _ ih =>
    rw [← hcs] at hs
    obtain ⟨n, hn⟩ := ih (c.advance rest) rfl
    rw [Cursor.advance_advance (hc _ _ _ hs) List.nil_suffix] at hn
    rw [← hcs, sweep_of_some progress hs]
    exact ⟨n + 1, .again (sweepLoop_of_some progress hc hs) hn⟩
  | case3 d cs h ih =>
    obtain ⟨n, hn⟩ := ih (c.advance cs) rfl
    rw [Cursor.advance_advance (hcs ▸ List.suffix_cons d cs) List.nil_suffix] at hn
    rw [sweep_of_none progress h]
    exact ⟨n + 1, .again (sweepLoop_of_none hcs (hcs ▸ h)) hn⟩

/-- From the start of a text the sweep comes to its end. -/
theorem sweepLoop_start (progress : r.Progresses) (hc : r.Consumes) (text : List Char) :
    ∃ n ≤ text.length, r.sweepLoop.Runs (.start text) n (sweep r progress text)
      ⟨utf8Length text, []⟩ := by
  obtain ⟨n, hn, hruns⟩ := (sweepLoop_ends progress hc).runs (.start text)
  rw [Cursor.advance_append (List.append_nil text).symm] at hruns
  have hstart : (Cursor.start text).position + utf8Length text = utf8Length text := Nat.zero_add _
  rw [hstart] at hruns
  exact ⟨n, hn, hruns⟩

/-! ## How much is found -/

/-- Whatever is read takes a visible character off the text. -/
theorem visibleLength_lt (progress : r.Progresses) (hc : r.Consumes) (hblind : r.IgnoresBlanks)
    {cs rest : List Char} {a : α} (h : r cs = some (a, rest)) :
    visibleLength rest < visibleLength cs := by
  rw [← hblind _ _ (skipBlanks_skipBlanks cs)] at h
  have hsuffix := hc _ _ _ h
  have hlt := progress _ _ _ h
  cases hs : skipBlanks cs with
  | nil =>
    rw [hs] at hlt
    exact absurd hlt (Nat.not_lt_zero _)
  | cons c more =>
    rw [hs] at hsuffix hlt
    have hrest : rest <:+ more := by
      rcases List.suffix_cons_iff.1 hsuffix with rfl | hmore
      · exact absurd hlt (Nat.lt_irrefl _)
      · exact hmore
    have hc : visibleLength (c :: more) = visibleLength more + 1 :=
      List.countP_cons_of_pos (by rw [isBlank_of_skipBlanks hs]; rfl)
    calc visibleLength rest
        ≤ visibleLength more := hrest.sublist.countP_le
      _ < visibleLength (c :: more) := by omega
      _ ≤ visibleLength cs := hs ▸ (skipBlanks_suffix cs).sublist.countP_le

/-- No more values are found than there are visible characters. -/
theorem length_sweep_le (progress : r.Progresses) (hc : r.Consumes) (hblind : r.IgnoresBlanks)
    (cs : List Char) : (sweep r progress cs).length ≤ visibleLength cs := by
  fun_induction sweep r progress cs with
  | case1 => exact Nat.zero_le _
  | case2 c cs a rest hs _ ih =>
    have := visibleLength_lt progress hc hblind hs
    rw [List.length_cons]
    omega
  | case3 c cs _ ih => exact ih.trans (List.suffix_cons c cs).sublist.countP_le

end Scanner

end MusicMacro
