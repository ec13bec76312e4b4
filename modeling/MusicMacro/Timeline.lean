import MusicMacro.Phrase.Capacity

/-!
# Timelines

A timeline keeps every phrase that has been scheduled, with the time at which it starts. A handle
stands for one or more of its entries, each of which starts where the one before it ends. Stopping
a handle cuts off all its entries, also for the other handles that cover them.

* `entries_of_play`, `entries_of_splice` — scheduling adds one entry at the end.
* `stop_of_finished` — stopping what has finished changes nothing.
-/

namespace MusicMacro

/-- A phrase on a timeline. -/
structure Entry (τ σ : Type) where
  phrase : Phrase τ σ
  start : τ
  duration : τ
  /-- Nothing sounds from this time on. -/
  stoppedAt : Option τ

/-- The playing of one or more entries. -/
structure Handle (τ : Type) where
  /-- The indices of the entries. -/
  parts : List Nat
  start : τ
  finish : τ
  /-- The time at which the handle was stopped last. -/
  stoppedAt : Option τ
deriving DecidableEq, Repr

/-- How playing ended. -/
inductive Outcome
  | completed
  | cancelled
deriving DecidableEq, Repr

/-- Everything that has been scheduled, and the handles on it. -/
structure Timeline (τ σ : Type) where
  entries : List (Entry τ σ)
  handles : List (Handle τ)

/-- A phrase that cannot be scheduled, because its duration or its start is not finite. -/
structure Unschedulable (τ : Type) where
  duration : τ
  start : τ
deriving DecidableEq, Repr

variable {τ σ : Type} [Scalar τ]

/-- The time at which an entry ends, stopped or not. -/
def Entry.finish (e : Entry τ σ) : τ :=
  let natural := e.start + e.duration
  e.stoppedAt.elim natural (Scalar.smaller natural)

/-- An entry from which nothing sounds from a time on. -/
def Entry.cut (e : Entry τ σ) (time : τ) : Entry τ σ :=
  { e with stoppedAt := some (e.stoppedAt.elim time (Scalar.smaller · time)) }

namespace Handle

/-- How playing ended, if it has ended by now. -/
def outcome (h : Handle τ) (now : τ) : Option Outcome :=
  if h.stoppedAt.any fun time => decide (time ≤ now) then some .cancelled
  else if h.finish ≤ now then some .completed
  else none

/-- A handle that has been stopped. -/
def stop (h : Handle τ) (time : τ) : Handle τ := { h with finish := time, stoppedAt := some time }

end Handle

namespace Timeline

/-- The timeline on which nothing has been scheduled. -/
def empty : Timeline τ σ := ⟨[], []⟩

/-- The times at which the entries start and end. -/
def spans (t : Timeline τ σ) : List (τ × τ) := t.entries.map fun e => (e.start, e.finish)

/-- The time at which everything has ended; time zero if nothing ends after it. -/
def finish (t : Timeline τ σ) : τ := t.entries.foldl (fun last e => Scalar.larger last e.finish) 0

/-! ## Scheduling -/

/-- The entry of a phrase that starts at a time. -/
def entry? (p : Phrase τ σ) (start : τ) : Except (Unschedulable τ) (Entry τ σ) :=
  if Scalar.isFinite start && Scalar.isFinite p.duration then .ok ⟨p, start, p.duration, none⟩
  else .error ⟨p.duration, start⟩

/-- Adds an entry, and a handle on it together with entries that are there already. -/
def add (t : Timeline τ σ) (e : Entry τ σ) (parts : List Nat) (start : τ) : Timeline τ σ :=
  ⟨t.entries ++ [e], t.handles ++ [⟨parts ++ [t.entries.length], start, e.finish, none⟩]⟩

/-- Schedules a phrase at a time. The new handle is the last one. -/
def play (t : Timeline τ σ) (p : Phrase τ σ) (start : τ) :
    Except (Unschedulable τ) (Timeline τ σ) := do
  return t.add (← entry? p start) [] start

/-- Schedules a phrase where a handle ends. The new handle, the last one, covers what the old one
covers and the phrase. -/
def splice (t : Timeline τ σ) (previous : Handle τ) (p : Phrase τ σ) :
    Except (Unschedulable τ) (Timeline τ σ) := do
  return t.add (← entry? p previous.finish) previous.parts previous.start

/-- Stops a handle at a time, unless it has ended by then. -/
def stop (t : Timeline τ σ) (i : Nat) (time : τ) : Timeline τ σ :=
  match t.handles[i]? with
  | none => t
  | some h =>
    if h.finish ≤ time then t
    else
      { entries := t.entries.mapIdx fun k e => if k ∈ h.parts then e.cut time else e
        handles := t.handles.set i (h.stop time) }

theorem entries_of_play {t t' : Timeline τ σ} {p : Phrase τ σ} {start : τ}
    (h : t.play p start = .ok t') :
    t'.entries = t.entries ++ [⟨p, start, p.duration, none⟩] := by
  simp only [play, entry?] at h
  split at h <;> cases h
  rfl

theorem entries_of_splice {t t' : Timeline τ σ} {p : Phrase τ σ} {previous : Handle τ}
    (h : t.splice previous p = .ok t') :
    t'.entries = t.entries ++ [⟨p, previous.finish, p.duration, none⟩] := by
  simp only [splice, entry?] at h
  split at h <;> cases h
  rfl

theorem stop_of_finished {t : Timeline τ σ} {i : Nat} {h : Handle τ} {time : τ}
    (hi : t.handles[i]? = some h) (hf : h.finish ≤ time) : t.stop i time = t := by
  simp [stop, hi, hf]

/-! ## Rendering -/

variable [Scalar σ] [Circular σ] [Narrow τ σ]

/-- Mixes everything, from time zero until all has died away. -/
def render (t : Timeline τ σ) (rate : Nat) : Array σ :=
  t.entries.foldl (fun buffer e => e.phrase.mixInto e.start e.stoppedAt rate buffer) #[]

/-- Mixes everything, unless that needs more than a buffer. -/
def render? (t : Timeline τ σ) (rate : Nat) : Option (Array σ) :=
  if t.entries.any fun e => e.phrase.exceeds e.start e.stoppedAt rate then none
  else some (t.render rate)

end Timeline

end MusicMacro
