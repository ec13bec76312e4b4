import MusicMacro.Number.Scalar

/-!
# Clocks

Time is moved by hand. Waiting for a time moves the clock there at once, unless a stop has been
requested. A press of the stop handle may be set for a time before the deadline of the next wait.
It is then made inside that wait and ends it: at the time it is set for, or as soon as the wait
starts if that time is past. A press that is set for the deadline or later is never made.

* `Clock.wait` — waits for a deadline, unless a stop is requested first.
-/

namespace MusicMacro

/-- A clock that is moved by hand. -/
structure Clock (τ : Type) where
  now : τ
  /-- When the stop handle will be pressed inside the next wait, if before its deadline. A time that
  is past means as soon as the wait starts. -/
  press : Option τ
deriving DecidableEq, Repr

namespace Clock

variable {τ : Type} [Scalar τ]

/-- Time zero. -/
def start : Clock τ := ⟨0, none⟩

omit [Scalar τ] in
/-- Moves the clock to a time, forwards or backwards. -/
def set (c : Clock τ) (time : τ) : Clock τ := { c with now := time }

/-- Moves the clock by a duration. -/
def advance (c : Clock τ) (duration : τ) : Clock τ := { c with now := c.now + duration }

/-- Moves the clock forwards to a time, if it has not come yet. -/
def catchUp (c : Clock τ) (time : τ) : Clock τ := if c.now < time then c.set time else c

/-- How a wait ended. -/
structure Wait (τ : Type) where
  /-- Whether the deadline was reached. -/
  reached : Bool
  clock : Clock τ
  /-- Whether a stop is requested now. -/
  requested : Bool
deriving DecidableEq, Repr

/-- Waits for a deadline. A press that is set for an earlier time is made inside the wait and ends
it, at that time or, if that is past, at once. The wait uses the press up even if it is not made. -/
def wait (c : Clock τ) (deadline : τ) (requested : Bool) : Wait τ :=
  let idle : Clock τ := { c with press := none }
  if requested then ⟨false, idle, true⟩
  else
    match c.press with
    | some time =>
      if time < deadline then ⟨false, idle.catchUp time, true⟩
      else ⟨true, idle.catchUp deadline, false⟩
    | none => ⟨true, idle.catchUp deadline, false⟩

end Clock

end MusicMacro
