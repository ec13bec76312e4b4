import MusicMacro.Clock
import MusicMacro.Fragment
import MusicMacro.Timeline

/-!
# The sequencer

A sequencer takes submissions, each of them a list of fragments, one for every voice. It reads a
fragment from where its voice left off and schedules the phrase that all of them make right after
what is playing. When too much is queued a submission waits first, and a press of the stop handle
while it waits cancels it.

* `submit` — the three steps: `awaitQueue`, `compose`, `schedule`.
* `voices_of_error` — a submission that fails leaves every voice where it was.
-/

namespace MusicMacro

/-- Why a submission fails. -/
inductive SubmitError (τ : Type)
  /-- The stop handle was pressed while it waited. -/
  | cancelled
  /-- The phrase cannot be scheduled. -/
  | unschedulable (u : Unschedulable τ)
  /-- The device does not take the phrase. -/
  | refused (reason : String)
deriving DecidableEq, Repr

/-- A submission that has been scheduled. -/
structure Submission (τ σ : Type) where
  start : τ
  finish : τ
  warnings : List Warning
  phrase : Phrase τ σ

/-- A sequencer. -/
structure Sequencer (τ σ : Type) where
  setup : Setup τ σ
  clock : Clock τ
  /-- Whether the stop handle has been pressed. -/
  stopRequested : Bool
  /-- Why the device takes no phrases, while it takes none. -/
  refusal : Option String
  timeline : Timeline τ σ
  /-- The index of the handle on what was submitted last. -/
  playback : Option Nat
  /-- The states of the voices; none for a voice that has not played. -/
  voices : List (Option Voice)

namespace Sequencer

variable {τ σ : Type} [Scalar τ]

/-- A sequencer at time zero that has played nothing; the setup must be in order. -/
def create (setup : Setup τ σ) : Except (SetupError τ) (Sequencer τ σ) := do
  setup.check
  return ⟨setup, .start, false, none, .empty, none, []⟩

omit [Scalar τ] in
/-- The handle on what was submitted last. -/
def handle? (s : Sequencer τ σ) : Option (Handle τ) := s.playback.bind (s.timeline.handles[·]?)

/-- That handle, if it has not ended yet. -/
def playing? (s : Sequencer τ σ) : Option (Handle τ) :=
  s.handle?.filter fun h => decide (s.clock.now < h.finish)

/-- The seconds that are queued. -/
def remaining (s : Sequencer τ σ) : τ :=
  s.playing?.elim 0 fun h => Scalar.larger (h.finish - s.clock.now) 0

omit [Scalar τ] in
/-- The state of a voice. -/
def voice? (s : Sequencer τ σ) (i : Nat) : Option Voice := s.voices[i]?.join

/-! ## Moves between submissions -/

/-- Stops what is playing now. The voices stay where they are. -/
def stop (s : Sequencer τ σ) : Sequencer τ σ :=
  match s.playback with
  | some i => { s with timeline := s.timeline.stop i s.clock.now }
  | none => s

omit [Scalar τ] in
/-- Presses the stop handle. -/
def press (s : Sequencer τ σ) : Sequencer τ σ := { s with stopRequested := true }

omit [Scalar τ] in
/-- Forgets the states of all voices. -/
def reset (s : Sequencer τ σ) : Sequencer τ σ := { s with voices := [] }

omit [Scalar τ] in
/-- Moves the clock to a time. -/
def setClock (s : Sequencer τ σ) (time : τ) : Sequencer τ σ := { s with clock := s.clock.set time }

/-- Moves the clock by a duration. -/
def advanceClock (s : Sequencer τ σ) (duration : τ) : Sequencer τ σ :=
  { s with clock := s.clock.advance duration }

omit [Scalar τ] in
/-- Lets the stop handle be pressed inside the next wait: at a time before its deadline, or as soon
as the wait starts if that time is past. Outside waits it is `press` that presses it. -/
def pressAt (s : Sequencer τ σ) (time : Option τ) : Sequencer τ σ :=
  { s with clock := { s.clock with press := time } }

omit [Scalar τ] in
/-- Lets the device refuse phrases for a reason, or take them. -/
def refuse (s : Sequencer τ σ) (reason : Option String) : Sequencer τ σ :=
  { s with refusal := reason }

/-! ## Waiting -/

/-- By how much the queue exceeds the ceiling, if it does. -/
def excess? (s : Sequencer τ σ) : Option τ :=
  match s.setup.maxQueued with
  | .unbounded => none
  | .seconds most =>
    let excess := s.remaining - most
    if excess ≤ 0 then none else some excess

/-- Waits until the queue is within the ceiling. A stop that was requested before does not count.
A stop that is requested meanwhile stops what is playing, and the answer is no. -/
def awaitQueue (s : Sequencer τ σ) : Bool × Sequencer τ σ :=
  match s.excess? with
  | none => (true, s)
  | some excess =>
    let w := s.clock.wait (s.clock.now + excess) false
    let s := { s with clock := w.clock, stopRequested := false }
    if w.reached then (true, s) else (false, s.stop)

/-- What there is to say about a wait. -/
def waitNotices (s : Sequencer τ σ) : List (Notice τ σ) :=
  match s.excess? with
  | none => []
  | some excess =>
    .waiting s.remaining excess :: if s.stopRequested then [.stopDiscarded] else []

/-! ## Composing -/

/-- The part of one voice in a submission. -/
structure Part (τ σ : Type) where
  phrase : Phrase τ σ
  voice : Voice
  warnings : List Warning
  notices : List (Notice τ σ)

variable [Scalar σ] [Tuned τ]

/-- The parts of the voices from index `i` on. The tempo goes from each of them to the next. -/
def parts (s : Sequencer τ σ) (i tempo : Nat) : List (List Char) → List (Part τ σ)
  | [] => []
  | text :: texts =>
    let f := Fragment.ofText text
    let tempo := f.tempo tempo
    let previous := s.voice? i
    ⟨f.phrase s.setup previous tempo, f.voice s.setup previous,
      f.warnings i s.setup.instruments.length, f.notices s.setup i previous⟩ ::
        s.parts (i + 1) tempo texts

/-- The parts of all voices. -/
def compose (s : Sequencer τ σ) (texts : List (List Char)) : List (Part τ σ) :=
  s.parts 0 s.setup.tempo texts

/-! ## Scheduling -/

omit [Tuned τ] [Scalar σ] in
/-- Schedules a phrase right after what is playing, or now if nothing is. The result holds the
time at which the phrase starts. -/
def schedule (s : Sequencer τ σ) (p : Phrase τ σ) :
    Except (SubmitError τ) (τ × Timeline τ σ) := do
  if let some reason := s.refusal then throw (.refused reason)
  match s.playing? with
  | some h => return (h.finish, ← (s.timeline.splice h p).mapError .unschedulable)
  | none => return (s.clock.now, ← (s.timeline.play p s.clock.now).mapError .unschedulable)

omit [Tuned τ] [Scalar σ] [Scalar τ] in
/-- The states of the voices when the first of them have moved on. -/
def updated (voices : List (Option Voice)) (next : List Voice) : List (Option Voice) :=
  next.map some ++ voices.drop next.length

/-- What becomes of a submission. -/
structure Report (τ σ : Type) where
  sequencer : Sequencer τ σ
  result : Except (SubmitError τ) (Submission τ σ)
  notices : List (Notice τ σ)

/-- Schedules the parts of a submission and moves the voices on. -/
def commit (s : Sequencer τ σ) (parts : List (Part τ σ)) :
    Except (SubmitError τ) (Submission τ σ × Sequencer τ σ) := do
  let phrase := Phrase.parallel (parts.map (·.phrase))
  let (start, timeline) ← s.schedule phrase
  let finish := timeline.handles.getLast?.elim start (·.finish)
  return (⟨start, finish, parts.flatMap (·.warnings), phrase⟩,
    { s with
      timeline := timeline
      playback := some (timeline.handles.length - 1)
      voices := updated s.voices (parts.map (·.voice)) })

/-- Takes a submission: one fragment for each of the first voices. -/
def submit (s : Sequencer τ σ) (texts : List (List Char)) : Report τ σ :=
  match s.awaitQueue with
  | (false, after) => ⟨after, .error .cancelled, s.waitNotices⟩
  | (true, after) =>
    let parts := after.compose texts
    let notices := s.waitNotices ++ parts.flatMap (·.notices)
    match after.commit parts with
    | .error e => ⟨after, .error e, notices⟩
    | .ok (submission, next) =>
      ⟨next, .ok submission,
        notices ++ [.submitted texts.length submission.start submission.finish]⟩

omit [Scalar σ] [Tuned τ] in
theorem voices_awaitQueue (s : Sequencer τ σ) : s.awaitQueue.2.voices = s.voices := by
  unfold awaitQueue
  split
  · rfl
  · dsimp only
    split
    · rfl
    · simp only [stop]; split <;> rfl

theorem voices_of_error {s : Sequencer τ σ} {texts : List (List Char)} {e : SubmitError τ}
    (h : (s.submit texts).result = .error e) : (s.submit texts).sequencer.voices = s.voices := by
  have hw := s.voices_awaitQueue
  unfold submit at h ⊢
  split
  · next eq => rw [eq] at hw; exact hw
  · next eq =>
    rw [eq] at hw
    dsimp only
    split
    · exact hw
    · next hc => simp [eq, hc] at h

end Sequencer

end MusicMacro
