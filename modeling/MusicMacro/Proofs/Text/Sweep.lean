import MusicMacro.Proofs.Text.Boundary

/-!
# Sweeping a text

Melodies and percussion are read in the same way: a command where one is written, and elsewhere one
character is passed over. What such a sweep finds depends on the scanner for a single command alone,
and so do its laws.

* `Scanner.sweep`, `eq_sweep` — the sweep, and how to tell that a function is one.
* `sweep_boundary` — a character across which nothing is read divides it.
* `Scanner.IgnoresBlanks`, `sweep_skipBlanks` — blanks in front of a text do not matter.
* `Scattered`, `sweep_scattered` — values that are written with foreign characters between them are
  found, and nothing else is.
-/

namespace MusicMacro

variable {α β : Type} {x : Char}

namespace Scanner

/-- The values that a scanner finds in a text. Where it finds none, one character is passed
over. -/
def sweep (r : Scanner α) (progress : r.Progresses) (cs : List Char) : List α :=
  match cs with
  | [] => []
  | c :: cs =>
    match h : r (c :: cs) with
    | some (a, rest) =>
      have := progress _ _ _ h
      a :: sweep r progress rest
    | none => sweep r progress cs
termination_by cs.length
decreasing_by all_goals simp only [List.length_cons] at *; omega

variable {r : Scanner α} (progress : r.Progresses)

theorem sweep_nil : sweep r progress [] = [] := by
  unfold sweep
  rfl

theorem sweep_of_some {cs rest : List Char} {a : α} (h : r cs = some (a, rest)) :
    sweep r progress cs = a :: sweep r progress rest := by
  cases cs with
  | nil => exact absurd (progress _ _ _ h) (Nat.not_lt_zero _)
  | cons c cs =>
    conv => lhs; unfold sweep
    split <;> simp_all

theorem sweep_of_none {c : Char} {cs : List Char} (h : r (c :: cs) = none) :
    sweep r progress (c :: cs) = sweep r progress cs := by
  conv => lhs; unfold sweep
  split <;> simp_all

/-- A function that reads a text like this is the sweep. -/
theorem eq_sweep {f : List Char → List α} (hnil : f [] = [])
    (hsome : ∀ c cs a rest, r (c :: cs) = some (a, rest) → f (c :: cs) = a :: f rest)
    (hnone : ∀ c cs, r (c :: cs) = none → f (c :: cs) = f cs) (cs : List Char) :
    f cs = sweep r progress cs := by
  fun_induction sweep r progress cs with
  | case1 => exact hnil
  | case2 c cs a rest h _ ih => rw [hsome c cs a rest h, ih]
  | case3 c cs h ih => rw [hnone c cs h, ih]

/-- A character across which nothing is read divides what is found. -/
theorem sweep_boundary (h : r.EndsAt x) (a b : List Char) :
    sweep r progress (a ++ x :: b) = sweep r progress a ++ sweep r progress b := by
  fun_induction sweep r progress a with
  | case1 =>
    -- nothing is read in front of the character, so it is passed over
    have hnone : r (x :: b) = none := by
      rw [← List.nil_append (x :: b), h, progress.nil]
      rfl
    rw [List.nil_append, sweep_of_none progress hnone, List.nil_append]
  | case2 c cs v rest hv _ ih =>
    have hv' : r (c :: cs ++ x :: b) = some (v, rest ++ x :: b) := by
      rw [h, hv]
      rfl
    rw [sweep_of_some progress hv', ih, List.cons_append]
  | case3 c cs hn ih =>
    have hn' : r (c :: (cs ++ x :: b)) = none := by
      rw [← List.cons_append, h, hn]
      rfl
    rw [List.cons_append, sweep_of_none progress hn', ih]

/-! ## Blanks -/

/-- Blanks in front of a text do not matter to the scanner. -/
def IgnoresBlanks (r : Scanner α) : Prop :=
  ∀ cs cs', skipBlanks cs = skipBlanks cs' → r cs = r cs'

theorem IgnoresBlanks.map (h : r.IgnoresBlanks) (f : α → β) : (r.map f).IgnoresBlanks := by
  intro cs cs' heq
  rw [Scanner.map, Scanner.map, h cs cs' heq]

theorem IgnoresBlanks.firstOf {rs : List (Scanner α)} (h : ∀ r ∈ rs, r.IgnoresBlanks) :
    (firstOf rs).IgnoresBlanks :=
  fun cs cs' heq => firstOf_congr fun r hr => h r hr cs cs' heq

theorem ignoresBlanks_read (p : Pattern) : IgnoresBlanks p.read := fun _ _ heq => p.read_congr heq

theorem ignoresBlanks_readTimed (tokens : LengthTokens) (p : Pattern) (command : LengthText → α) :
    IgnoresBlanks (tokens.readTimed p command) := by
  intro cs cs' heq
  rw [LengthTokens.readTimed, LengthTokens.readTimed, p.read_congr heq]

variable (hblind : r.IgnoresBlanks)

include hblind

/-- A blank in front of a text changes nothing. -/
theorem sweep_cons_of_blank {c : Char} (hb : isBlank c = true) (cs : List Char) :
    sweep r progress (c :: cs) = sweep r progress cs := by
  have hsame : r (c :: cs) = r cs := hblind _ _ (skipBlanks_cons_of_blank hb cs)
  cases h : r cs with
  | none => exact sweep_of_none progress (hsame.trans h)
  | some v => rw [sweep_of_some progress (hsame.trans h), sweep_of_some progress h]

theorem sweep_skipBlanks (cs : List Char) :
    sweep r progress (skipBlanks cs) = sweep r progress cs := by
  induction cs with
  | nil => rfl
  | cons c cs ih =>
    cases hb : isBlank c with
    | true => rw [skipBlanks_cons_of_blank hb, ih, sweep_cons_of_blank progress hblind hb]
    | false => rw [skipBlanks_cons_of_not_blank hb]

end Scanner

/-! ## Values between foreign characters -/

/-- The text writes values one after the other, each as `W` says, with any foreign characters
between them. -/
inductive Scattered (W : α → List Char → Prop) (foreign : Char → Prop) :
    List α → List Char → Prop
  | nil : Scattered W foreign [] []
  | foreign {vs : List α} {c : Char} {text : List Char} :
    foreign c → Scattered W foreign vs text → Scattered W foreign vs (c :: text)
  | value {v : α} {vs : List α} {a b : List Char} :
    W v a → Scattered W foreign vs b → Scattered W foreign (v :: vs) (a ++ b)

variable {W : α → List Char → Prop} {foreign P : Char → Prop} {vs : List α} {text : List Char}

/-- Values can be written like this if each of them can be written, and only then. -/
theorem exists_scattered_iff :
    (∃ text, Scattered W foreign vs text) ↔ ∀ v ∈ vs, ∃ text, W v text := by
  constructor
  · rintro ⟨text, h⟩
    induction h with
    | nil => exact nofun
    | foreign _ _ ih => exact ih
    | value hv _ ih => exact List.forall_mem_cons.2 ⟨⟨_, hv⟩, ih⟩
  · intro h
    induction vs with
    | nil => exact ⟨[], .nil⟩
    | cons v vs ih =>
      obtain ⟨⟨a, ha⟩, hvs⟩ := List.forall_mem_cons.1 h
      obtain ⟨b, hb⟩ := ih hvs
      exact ⟨a ++ b, .value ha hb⟩

/-- What is written can begin only as a value or with a foreign character. -/
theorem Scattered.next (h : Scattered W foreign vs text) (hforeign : ∀ c, foreign c → P c)
    (hW : ∀ v a more, W v a → Next P (a ++ more)) : Next P text := by
  induction h with
  | nil => exact .nil
  | @foreign _ c _ hc _ ih =>
    cases hb : isBlank c with
    | true => exact .cons_of_blank hb ih
    | false => exact .cons_of_not_blank hb (hforeign c hc) _
  | value hv _ _ => exact hW _ _ _ hv

/-- The values that are written are found, if each of them is read in front of anything that may
come next, and if nothing is read at a foreign character. -/
theorem Scanner.sweep_scattered {r : Scanner α} (progress : r.Progresses)
    (hblind : r.IgnoresBlanks) (hforeign : ∀ c, foreign c → P c)
    (hnone : ∀ c, foreign c → isBlank c = false → ∀ cs, r (c :: cs) = none)
    (hW : ∀ v a more, W v a → Next P (a ++ more))
    (hread : ∀ v a more, W v a → Next P more → r (a ++ more) = some (v, more))
    (h : Scattered W foreign vs text) : sweep r progress text = vs := by
  induction h with
  | nil => exact sweep_nil progress
  | @foreign _ c text hc _ ih =>
    cases hb : isBlank c with
    | true => rw [sweep_cons_of_blank progress hblind hb, ih]
    | false => rw [sweep_of_none progress (hnone c hc hb text), ih]
  | value hv hs ih =>
    rw [sweep_of_some progress (hread _ _ _ hv (hs.next hforeign hW)), ih]

end MusicMacro
