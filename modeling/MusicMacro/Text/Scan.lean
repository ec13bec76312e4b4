/-!
# Reading values off the head of a text

A `Scanner α` takes a value off the head of a text, or refuses. Repeating a scanner ends because
each round leaves a shorter text.

* `many` — reads as often as the scanner succeeds.
* `many_length_le` — what is left is never longer than the text.
-/

namespace MusicMacro

/-- Takes a value off the head of a text and gives it with the rest. -/
abbrev Scanner (α : Type) := List Char → Option (α × List Char)

namespace Scanner

variable {α β : Type}

/-- Every success leaves a strictly shorter text. -/
def Progresses (r : Scanner α) : Prop :=
  ∀ cs a rest, r cs = some (a, rest) → rest.length < cs.length

/-- Applies a function to the value that is read. -/
def map (f : α → β) (r : Scanner α) : Scanner β :=
  fun cs => (r cs).map fun (a, rest) => (f a, rest)

/-- Tries the second scanner where the first refuses. -/
def orElse (r s : Scanner α) : Scanner α :=
  fun cs => (r cs).or (s cs)

/-- The first of several scanners that succeeds. -/
def firstOf (rs : List (Scanner α)) : Scanner α :=
  fun cs => rs.findSome? (· cs)

theorem map_eq_some {f : α → β} {r : Scanner α} {cs : List Char} {b : β} {rest : List Char} :
    map f r cs = some (b, rest) ↔ ∃ a, r cs = some (a, rest) ∧ f a = b := by
  unfold map
  cases r cs with
  | none => simp
  | some p =>
    constructor
    · rintro ⟨⟩; exact ⟨p.1, rfl, rfl⟩
    · rintro ⟨a, ⟨⟩, rfl⟩; rfl

theorem Progresses.map {r : Scanner α} (h : r.Progresses) (f : α → β) :
    (r.map f).Progresses := fun _ _ _ eq =>
  let ⟨_, hr, _⟩ := map_eq_some.1 eq
  h _ _ _ hr

theorem Progresses.orElse {r s : Scanner α} (hr : r.Progresses) (hs : s.Progresses) :
    (r.orElse s).Progresses := fun _ _ _ eq =>
  (Option.or_eq_some_iff.1 eq).elim (hr _ _ _) fun h => hs _ _ _ h.2

theorem Progresses.firstOf {rs : List (Scanner α)} (h : ∀ r ∈ rs, Progresses r) :
    (firstOf rs).Progresses := fun _ _ _ eq =>
  let ⟨r, hr, eq⟩ := List.exists_of_findSome?_eq_some eq
  h r hr _ _ _ eq

/-- Reads as often as the scanner succeeds. -/
def many (r : Scanner α) (progress : r.Progresses) (cs : List Char) : List α × List Char :=
  match h : r cs with
  | none => ([], cs)
  | some (a, rest) =>
    have := progress _ _ _ h
    let more := many r progress rest
    (a :: more.1, more.2)
termination_by cs.length

theorem many_of_none {r : Scanner α} (progress : r.Progresses) {cs : List Char}
    (h : r cs = none) : many r progress cs = ([], cs) := by
  unfold many; split <;> simp_all

theorem many_of_some {r : Scanner α} (progress : r.Progresses) {cs : List Char} {a : α}
    {rest : List Char} (h : r cs = some (a, rest)) :
    many r progress cs = (a :: (many r progress rest).1, (many r progress rest).2) := by
  conv => lhs; unfold many
  split <;> simp_all

theorem many_length_le {r : Scanner α} (progress : r.Progresses) (cs : List Char) :
    (many r progress cs).2.length ≤ cs.length := by
  fun_induction many r progress cs with
  | case1 => simp
  | case2 _ _ _ _ hlt _ ih => exact Nat.le_trans ih (Nat.le_of_lt hlt)

end Scanner

end MusicMacro
