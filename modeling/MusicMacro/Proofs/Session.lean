import MusicMacro.Sequencer

/-!
# Sessions

A session is a list of moves on a sequencer, in any order: submissions, stops, presses of the stop
handle, resets, moves of the clock, and a device that refuses phrases for a while.

* `run` — the sequencer after a session.
* `Forward` — the clock is never moved backwards.
* `run_induction` — what each move keeps, a session keeps.
* `awaitQueue_cases`, `commit_eq`, `submit_cases` — everything that a submission can do.
* `compose_congr` — what is composed depends on the setup and on the voices.
* `submit_of_ok` — what one does that succeeds.
* `submit_of_reached` — what one comes to when its wait has reached its deadline.
-/

namespace MusicMacro.Sequencer

variable {τ σ : Type} [Scalar τ]

/-- What can happen to a sequencer. -/
inductive Move (τ : Type)
  | submit (texts : List (List Char))
  | stop
  | press
  | reset
  | setClock (time : τ)
  | advanceClock (duration : τ)
  /-- The stop handle will be pressed inside the next wait: at a time before its deadline, or as
  soon as the wait starts if that time is past. -/
  | pressAt (time : Option τ)
  /-- The device refuses phrases from now on, or takes them again. -/
  | refuse (reason : Option String)

/-- The sequencer after a move. -/
def move [Scalar σ] [Tuned τ] (s : Sequencer τ σ) : Move τ → Sequencer τ σ
  | .submit texts => (s.submit texts).sequencer
  | .stop => s.stop
  | .press => s.press
  | .reset => s.reset
  | .setClock time => s.setClock time
  | .advanceClock duration => s.advanceClock duration
  | .pressAt time => s.pressAt time
  | .refuse reason => s.refuse reason

/-- The sequencer after a session. -/
def run [Scalar σ] [Tuned τ] (s : Sequencer τ σ) (moves : List (Move τ)) : Sequencer τ σ :=
  moves.foldl move s

/-- The move does not set the clock back. -/
def Move.Forward (s : Sequencer τ σ) : Move τ → Prop
  | .setClock time => s.clock.now ≤ time
  | .advanceClock duration => 0 ≤ duration
  | _ => True

/-- No move of the session sets the clock back. -/
def Forward [Scalar σ] [Tuned τ] (s : Sequencer τ σ) : List (Move τ) → Prop
  | [] => True
  | m :: moves => m.Forward s ∧ (s.move m).Forward moves

/-- The sequencers to which a session leads whose clock is never set back. -/
def Reachable [Scalar σ] [Tuned τ] (setup : Setup τ σ) (s : Sequencer τ σ) : Prop :=
  ∃ s₀ moves, create setup = .ok s₀ ∧ s₀.Forward moves ∧ s = s₀.run moves

/-- A sequencer that has played nothing. -/
def fresh (setup : Setup τ σ) : Sequencer τ σ := ⟨setup, .start, false, none, .empty, none, []⟩

theorem create_eq_ok_iff {setup : Setup τ σ} {s : Sequencer τ σ} :
    create setup = .ok s ↔ setup.check = .ok () ∧ s = fresh setup := by
  unfold create fresh
  cases setup.check with
  | error e => simp [bind, Except.bind]
  | ok u => simp [bind, Except.bind, pure, Except.pure, eq_comm]

/-- What each move keeps, a session keeps. -/
theorem run_induction [Scalar σ] [Tuned τ] {P : Sequencer τ σ → Prop}
    (step : ∀ s (m : Move τ), m.Forward s → P s → P (s.move m)) {s : Sequencer τ σ} (h : P s)
    {moves : List (Move τ)} (hm : s.Forward moves) : P (s.run moves) := by
  induction moves generalizing s with
  | nil => exact h
  | cons m moves ih => exact ih (step s m hm.1 h) hm.2

/-- What each move keeps, whatever the clock does, a session keeps. -/
theorem run_invariant [Scalar σ] [Tuned τ] {P : Sequencer τ σ → Prop}
    (step : ∀ s m, P s → P (s.move m)) {s : Sequencer τ σ} (h : P s) (moves : List (Move τ)) :
    P (s.run moves) := by
  induction moves generalizing s with
  | nil => exact h
  | cons m moves ih => exact ih (step s m h)

/-! ## Playing -/

theorem playing?_eq_some_iff {s : Sequencer τ σ} {h : Handle τ} :
    s.playing? = some h ↔ s.handle? = some h ∧ s.clock.now < h.finish := by
  rw [playing?, Option.filter_eq_some_iff, decide_eq_true_eq]

theorem playing?_eq_none_iff {s : Sequencer τ σ} :
    s.playing? = none ↔ ∀ h, s.handle? = some h → ¬s.clock.now < h.finish := by
  rw [Option.eq_none_iff_forall_not_mem]
  constructor
  · intro hn h hh hlt
    exact hn h (playing?_eq_some_iff.2 ⟨hh, hlt⟩)
  · intro hn h hp
    obtain ⟨hh, hlt⟩ := playing?_eq_some_iff.1 hp
    exact hn h hh hlt

/-- A handle that has ended is not playing. -/
theorem playing?_of_ended {s : Sequencer τ σ} {h : Handle τ} (hh : s.handle? = some h)
    (he : ¬s.clock.now < h.finish) : s.playing? = none := by
  rw [playing?_eq_none_iff]
  intro h' hh'
  rw [hh, Option.some_inj] at hh'
  rw [← hh']
  exact he

theorem playing?_of_none {s : Sequencer τ σ} (hh : s.handle? = none) : s.playing? = none := by
  rw [playing?, hh]
  rfl

/-! ## Waiting -/

/-- The sequencer when a wait has ended at a time. -/
def waitedUntil (s : Sequencer τ σ) (time : τ) : Sequencer τ σ :=
  { s with clock := Clock.catchUp { s.clock with press := none } time, stopRequested := false }

theorem now_waitedUntil_eq_ite (s : Sequencer τ σ) (time : τ) :
    (s.waitedUntil time).clock.now = if s.clock.now < time then time else s.clock.now := by
  rw [waitedUntil, Clock.catchUp]
  split <;> rfl

omit [Scalar τ] in
theorem handle?_of_eq {s s' : Sequencer τ σ} (hp : s'.playback = s.playback)
    (ht : s'.timeline = s.timeline) : s'.handle? = s.handle? := by
  rw [handle?, handle?, hp, ht]

/-- There is no wait, or it ends at its deadline, or a press before the deadline ends it. -/
theorem awaitQueue_cases (s : Sequencer τ σ) :
    (s.excess? = none ∧ s.awaitQueue = (true, s)) ∨
    (∃ excess, s.excess? = some excess ∧ (∀ time ∈ s.clock.press, ¬time < s.clock.now + excess) ∧
      s.awaitQueue = (true, s.waitedUntil (s.clock.now + excess))) ∨
    (∃ excess time, s.excess? = some excess ∧ s.clock.press = some time ∧
      time < s.clock.now + excess ∧ s.awaitQueue = (false, (s.waitedUntil time).stop)) := by
  cases hx : s.excess? with
  | none => exact .inl ⟨rfl, by simp [awaitQueue, hx]⟩
  | some excess =>
    refine .inr ?_
    cases hp : s.clock.press with
    | none =>
      exact .inl ⟨excess, rfl, by simp, by simp [awaitQueue, hx, Clock.wait, hp, waitedUntil]⟩
    | some time =>
      by_cases ht : time < s.clock.now + excess
      · exact .inr ⟨excess, time, rfl, rfl, ht,
          by simp [awaitQueue, hx, Clock.wait, hp, ht, waitedUntil]⟩
      · exact .inl ⟨excess, rfl, by simpa using ht,
          by simp [awaitQueue, hx, Clock.wait, hp, ht, waitedUntil]⟩

theorem awaitQueue_of_no_press {s : Sequencer τ σ} (hp : s.clock.press = none) :
    ∃ after, s.awaitQueue = (true, after) := by
  rcases s.awaitQueue_cases with ⟨-, heq⟩ | ⟨_, -, -, heq⟩ | ⟨_, _, -, hp', -⟩
  · exact ⟨_, heq⟩
  · exact ⟨_, heq⟩
  · rw [hp] at hp'
    cases hp'

/-- A wait that reaches its deadline changes the clock and forgets a stop request, and no more. -/
theorem eq_of_awaitQueue {s after : Sequencer τ σ} (h : s.awaitQueue = (true, after)) :
    after = { s with clock := after.clock, stopRequested := after.stopRequested } := by
  rcases s.awaitQueue_cases with ⟨-, heq⟩ | ⟨_, _, -, heq⟩ | ⟨_, _, -, -, -, heq⟩ <;>
    rw [heq] at h <;> cases h <;> rfl

/-- A press before the deadline ends a wait that does not reach it, and what is playing. -/
theorem exists_of_awaitQueue_eq_false {s after : Sequencer τ σ}
    (h : s.awaitQueue = (false, after)) :
    ∃ excess time, s.excess? = some excess ∧ s.clock.press = some time ∧
      time < s.clock.now + excess ∧ after = (s.waitedUntil time).stop := by
  rcases s.awaitQueue_cases with ⟨-, heq⟩ | ⟨_, -, -, heq⟩ | ⟨excess, time, hx, hp, ht, heq⟩ <;>
    rw [heq] at h <;> cases h
  exact ⟨excess, time, hx, hp, ht, rfl⟩

/-! ## Composing -/

/-- What is composed depends on the setup and on the voices. -/
theorem parts_congr [Scalar σ] [Tuned τ] {s s' : Sequencer τ σ} (hsetup : s'.setup = s.setup)
    (hvoice : ∀ i, s'.voice? i = s.voice? i) (i tempo : Nat) (texts : List (List Char)) :
    s'.parts i tempo texts = s.parts i tempo texts := by
  induction texts generalizing i tempo with
  | nil => rfl
  | cons text texts ih => rw [parts, parts, ih, hsetup, hvoice]

theorem compose_congr [Scalar σ] [Tuned τ] {s s' : Sequencer τ σ} (hsetup : s'.setup = s.setup)
    (hvoice : ∀ i, s'.voice? i = s.voice? i) (texts : List (List Char)) :
    s'.compose texts = s.compose texts := by
  rw [compose, compose, hsetup, parts_congr hsetup hvoice]

/-- What is composed after a wait could have been composed before it. -/
theorem compose_of_awaitQueue [Scalar σ] [Tuned τ] {s after : Sequencer τ σ}
    (ha : s.awaitQueue = (true, after)) (texts : List (List Char)) :
    after.compose texts = s.compose texts := by
  have hframe := eq_of_awaitQueue ha
  refine compose_congr ?_ (fun i => ?_) texts
  · rw [hframe]
  · rw [hframe]
    rfl

/-! ## Scheduling -/

/-- The time at which the next phrase starts: where what is playing ends, or now. -/
def nextStart (s : Sequencer τ σ) : τ := s.playing?.elim s.clock.now (·.finish)

/-- The entry of the next phrase. -/
def nextEntry (s : Sequencer τ σ) (p : Phrase τ σ) : Entry τ σ :=
  ⟨p, s.nextStart, p.duration, none⟩

/-- The timeline with the next phrase. -/
def extended (s : Sequencer τ σ) (p : Phrase τ σ) : Timeline τ σ :=
  s.timeline.add (s.nextEntry p) (s.playing?.elim [] (·.parts))
    (s.playing?.elim s.clock.now (·.start))

theorem schedule_eq (s : Sequencer τ σ) (p : Phrase τ σ) :
    s.schedule p =
      match s.refusal with
      | some reason => .error (.refused reason)
      | none =>
        if Scalar.isFinite s.nextStart && Scalar.isFinite p.duration then
          .ok (s.nextStart, s.extended p)
        else .error (.unschedulable ⟨p.duration, s.nextStart⟩) := by
  unfold schedule
  cases hr : s.refusal with
  | some reason => rfl
  | none =>
    cases hp : s.playing? with
    | none =>
      simp only [Timeline.play, Timeline.entry?, nextStart, extended, nextEntry, hp, Option.elim]
      split <;> rfl
    | some h =>
      simp only [Timeline.splice, Timeline.entry?, nextStart, extended, nextEntry, hp, Option.elim]
      split <;> rfl

/-- The phrase of some parts, all at once. -/
def together (parts : List (Part τ σ)) : Phrase τ σ := .parallel (parts.map (·.phrase))

/-- The submission of some parts. -/
def submission (s : Sequencer τ σ) (parts : List (Part τ σ)) : Submission τ σ :=
  ⟨s.nextStart, (s.nextEntry (together parts)).finish, parts.flatMap (·.warnings), together parts⟩

/-- The sequencer after the submission of some parts. -/
def committed (s : Sequencer τ σ) (parts : List (Part τ σ)) : Sequencer τ σ :=
  { s with
    timeline := s.extended (together parts)
    playback := some s.timeline.handles.length
    voices := updated s.voices (parts.map (·.voice)) }

theorem handle?_committed (s : Sequencer τ σ) (parts : List (Part τ σ)) :
    (s.committed parts).handle? =
      some ⟨s.playing?.elim [] (·.parts) ++ [s.timeline.entries.length],
        s.playing?.elim s.clock.now (·.start), (s.nextEntry (together parts)).finish, none⟩ := by
  simp [handle?, committed, extended, Timeline.add]

theorem commit_eq (s : Sequencer τ σ) (parts : List (Part τ σ)) :
    s.commit parts =
      match s.refusal with
      | some reason => .error (.refused reason)
      | none =>
        if Scalar.isFinite s.nextStart && Scalar.isFinite (together parts).duration then
          .ok (s.submission parts, s.committed parts)
        else .error (.unschedulable ⟨(together parts).duration, s.nextStart⟩) := by
  simp only [commit, schedule_eq]
  cases hr : s.refusal with
  | some reason => rfl
  | none =>
    rw [show Phrase.parallel (parts.map (·.phrase)) = together parts from rfl]
    generalize (Scalar.isFinite s.nextStart && Scalar.isFinite (together parts).duration) = finite
    cases finite with
    | false => rfl
    | true =>
      simp [submission, committed, extended, Timeline.add, bind, Except.bind, pure, Except.pure, hr]

theorem commit_eq_ok {s next : Sequencer τ σ} {parts : List (Part τ σ)} {sub : Submission τ σ}
    (h : s.commit parts = .ok (sub, next)) :
    sub = s.submission parts ∧ next = s.committed parts := by
  rw [commit_eq] at h
  split at h
  · cases h
  · split at h
    · cases h
      exact ⟨rfl, rfl⟩
    · cases h

/-- A submission is cancelled while it waits, or fails when it is to be scheduled, or succeeds. -/
theorem submit_cases [Scalar σ] [Tuned τ] (s : Sequencer τ σ) (texts : List (List Char)) :
    (∃ after, s.awaitQueue = (false, after) ∧ (s.submit texts).sequencer = after ∧
      (s.submit texts).result = .error .cancelled) ∨
    (∃ after e, s.awaitQueue = (true, after) ∧ after.commit (after.compose texts) = .error e ∧
      (s.submit texts).sequencer = after ∧ (s.submit texts).result = .error e) ∨
    (∃ after, s.awaitQueue = (true, after) ∧
      after.commit (after.compose texts) =
        .ok (after.submission (after.compose texts), after.committed (after.compose texts)) ∧
      (s.submit texts).sequencer = after.committed (after.compose texts) ∧
      (s.submit texts).result = .ok (after.submission (after.compose texts))) := by
  unfold submit
  cases hw : s.awaitQueue with
  | mk reached after =>
    cases reached with
    | false => exact .inl ⟨after, rfl, rfl, rfl⟩
    | true =>
      refine .inr ?_
      cases hc : after.commit (after.compose texts) with
      | error e => exact .inl ⟨after, e, rfl, hc, by simp [hc]⟩
      | ok r =>
        obtain ⟨hsub, hnext⟩ := commit_eq_ok hc
        have hr : r =
            (after.submission (after.compose texts), after.committed (after.compose texts)) :=
          Prod.ext hsub hnext
        rw [hr] at hc
        exact .inr ⟨after, rfl, hc, by simp [hc]⟩

/-- What a submission that succeeds does: it waits, and then it is scheduled. -/
theorem submit_of_ok [Scalar σ] [Tuned τ] {s : Sequencer τ σ} {texts : List (List Char)}
    {sub : Submission τ σ} (h : (s.submit texts).result = .ok sub) :
    ∃ after, s.awaitQueue = (true, after) ∧ sub = after.submission (after.compose texts) ∧
      (s.submit texts).sequencer = after.committed (after.compose texts) := by
  rcases s.submit_cases texts with ⟨_, -, -, hr⟩ | ⟨_, _, -, -, -, hr⟩ | ⟨after, ha, -, heq, hr⟩ <;>
    rw [hr] at h <;> cases h
  exact ⟨after, ha, rfl, heq⟩

/-- The handle on what was submitted ends with it. -/
theorem finish_of_ok [Scalar σ] [Tuned τ] {s : Sequencer τ σ} {texts : List (List Char)}
    {sub : Submission τ σ} (h : (s.submit texts).result = .ok sub) :
    (s.submit texts).sequencer.handle?.map (·.finish) = some sub.finish := by
  obtain ⟨after, -, rfl, heq⟩ := submit_of_ok h
  rw [heq, handle?_committed]
  rfl

/-- Each of its voices moves on. -/
theorem voices_of_ok [Scalar σ] [Tuned τ] {s : Sequencer τ σ} {texts : List (List Char)}
    {sub : Submission τ σ} (h : (s.submit texts).result = .ok sub) :
    (s.submit texts).sequencer.voices = updated s.voices ((s.compose texts).map (·.voice)) := by
  obtain ⟨after, ha, -, heq⟩ := submit_of_ok h
  have hvoices : after.voices = s.voices := by rw [eq_of_awaitQueue ha]
  rw [heq, ← compose_of_awaitQueue ha texts, ← hvoices]
  rfl

/-- After a wait that has reached its deadline a submission is what becomes of its parts. -/
theorem submit_of_reached [Scalar σ] [Tuned τ] {s after : Sequencer τ σ}
    (ha : s.awaitQueue = (true, after)) (texts : List (List Char)) :
    (s.submit texts).result = (after.commit (after.compose texts)).map (·.1) ∧
      (s.submit texts).sequencer =
        (after.commit (after.compose texts)).toOption.elim after (·.2) := by
  unfold submit
  rw [ha]
  dsimp only
  cases after.commit (after.compose texts) with
  | error e => exact ⟨rfl, rfl⟩
  | ok r => exact ⟨rfl, rfl⟩

/-- What is not cancelled has waited until its deadline. -/
theorem awaitQueue_of_not_cancelled [Scalar σ] [Tuned τ] {s : Sequencer τ σ}
    {texts : List (List Char)} (h : (s.submit texts).result ≠ .error .cancelled) :
    ∃ after, s.awaitQueue = (true, after) := by
  rcases s.submit_cases texts with ⟨_, -, -, hr⟩ | ⟨after, _, ha, -⟩ | ⟨after, ha, -⟩
  · exact absurd hr h
  · exact ⟨after, ha⟩
  · exact ⟨after, ha⟩

theorem commit_ne_cancelled (s : Sequencer τ σ) (parts : List (Part τ σ)) :
    s.commit parts ≠ .error .cancelled := by
  rw [commit_eq]
  split
  · simp
  · split <;> simp

/-- Where finite numbers are all there is, a device that takes phrases takes what has waited. -/
theorem submit_of_awaitQueue [Scalar σ] [Tuned τ] {s after : Sequencer τ σ}
    (ha : s.awaitQueue = (true, after)) (hr : s.refusal = none)
    (hf : ∀ a : τ, Scalar.isFinite a) (texts : List (List Char)) :
    ∃ sub, (s.submit texts).result = .ok sub := by
  rcases s.submit_cases texts with ⟨_, ha', -⟩ | ⟨after', e, ha', hc, -⟩ | ⟨_, -, -, -, h⟩
  · rw [ha] at ha'
    cases ha'
  · have hr' : after'.refusal = none := by rw [eq_of_awaitQueue ha', ← hr]
    rw [commit_eq, hr'] at hc
    simp [hf] at hc
  · exact ⟨_, h⟩

/-! ## What no move changes -/

theorem setup_stop (s : Sequencer τ σ) : s.stop.setup = s.setup := by
  unfold stop
  split <;> rfl

theorem clock_stop (s : Sequencer τ σ) : s.stop.clock = s.clock := by
  unfold stop
  split <;> rfl

theorem setup_awaitQueue (s : Sequencer τ σ) : s.awaitQueue.2.setup = s.setup := by
  rcases s.awaitQueue_cases with ⟨-, heq⟩ | ⟨_, _, -, heq⟩ | ⟨_, _, -, -, -, heq⟩ <;> rw [heq]
  · rfl
  · exact setup_stop _

theorem setup_submit [Scalar σ] [Tuned τ] (s : Sequencer τ σ) (texts : List (List Char)) :
    (s.submit texts).sequencer.setup = s.setup := by
  have hw := s.setup_awaitQueue
  rcases s.submit_cases texts with ⟨after, ha, heq, -⟩ | ⟨after, e, ha, -, heq, -⟩ |
    ⟨after, ha, -, heq, -⟩ <;> rw [ha] at hw <;> rw [heq]
  · exact hw
  · exact hw
  · exact hw

theorem setup_move [Scalar σ] [Tuned τ] (s : Sequencer τ σ) (m : Move τ) :
    (s.move m).setup = s.setup := by
  cases m with
  | submit texts => exact s.setup_submit texts
  | stop => exact s.setup_stop
  | _ => rfl

theorem setup_run [Scalar σ] [Tuned τ] (s : Sequencer τ σ) (moves : List (Move τ)) :
    (s.run moves).setup = s.setup :=
  run_invariant (P := fun s' => s'.setup = s.setup)
    (fun s' m h => (s'.setup_move m).trans h) rfl moves

theorem Reachable.setup_eq [Scalar σ] [Tuned τ] {setup : Setup τ σ} {s : Sequencer τ σ}
    (h : Reachable setup s) : s.setup = setup ∧ setup.check = .ok () := by
  obtain ⟨s₀, moves, h₀, -, rfl⟩ := h
  obtain ⟨hc, rfl⟩ := create_eq_ok_iff.1 h₀
  exact ⟨setup_run _ moves, hc⟩

end MusicMacro.Sequencer
