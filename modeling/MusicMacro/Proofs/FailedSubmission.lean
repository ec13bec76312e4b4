import MusicMacro.Proofs.Seamless

/-!
# Failed submissions

A submission fails while it waits, by a press of the stop handle, or after the wait, when its
phrase is to be scheduled. In the second case it has done nothing but wait, in the first it has
also stopped what was playing. Either way every voice stays where it was.

With rounded times a wait may reach a little beyond the end of what is playing, so that the press
comes when that has ended. In exact time it never does.

* `OnlyWaited`, `CutOff` — what is left of the sequencer in the two cases.
* `CutShort` — what more there is to say about the second in exact time.
* `awaitQueue_of_awaitQueue` — who has waited does not wait again.
* `failed_submission` — both cases, and what a second attempt gives.
-/

namespace MusicMacro.Sequencer

/-! ## What a failure leaves -/

section

variable {τ σ : Type} [Scalar τ]

/-- All that has happened is a wait: nothing but the clock and the request to stop is different. -/
structure OnlyWaited (s after : Sequencer τ σ) : Prop where
  waited : after = s.awaitQueue.2
  frame : after = { s with clock := after.clock, stopRequested := after.stopRequested }
  voice : ∀ i, after.voice? i = s.voice? i
  handle : after.handle? = s.handle?

/-- A press of the stop handle during a wait has ended what was playing at the time of the press,
or at once if that time was over. What had ended by then has stayed as it was. -/
structure CutOff (s after : Sequencer τ σ) : Prop where
  frame : after =
    { s with clock := after.clock, timeline := after.timeline, stopRequested := false }
  voice : ∀ i, after.voice? i = s.voice? i
  pressed : ∃ time, s.clock.press = some time ∧
    after.clock.now = if s.clock.now < time then time else s.clock.now
  handles : after.timeline.handles.length = s.timeline.handles.length
  handle : after.handle? = s.handle?.map fun h =>
    if h.finish ≤ after.clock.now then h else h.stop after.clock.now
  entries : ∀ k : Nat, after.timeline.entries[k]? = s.timeline.entries[k]?.map fun e =>
    if ∃ h ∈ s.handle?, ¬h.finish ≤ after.clock.now ∧ k ∈ h.parts then e.cut after.clock.now else e
  silent : after.playing? = none
  empty : after.remaining = 0

/-- In exact time there was something playing. -/
structure CutShort (s after : Sequencer Rat σ) : Prop extends CutOff s after where
  stopped : ∃ h time, s.handle? = some h ∧ s.clock.press = some time ∧
    after.clock.now = max s.clock.now time ∧ after.clock.now < h.finish ∧
    after.handle? = some (h.stop after.clock.now) ∧
    ∀ k : Nat, after.timeline.entries[k]? = s.timeline.entries[k]?.map fun e =>
      if k ∈ h.parts then e.cut after.clock.now else e

/-- Why a submission failed, if it did. -/
def failure? (r : Report τ σ) : Option (SubmitError τ) :=
  match r.result with
  | .error e => some e
  | .ok _ => none

omit [Scalar τ] in
theorem failure?_eq_some_iff {r : Report τ σ} {e : SubmitError τ} :
    failure? r = some e ↔ r.result = .error e := by
  unfold failure?
  cases r.result with
  | error e' => simp
  | ok sub => simp

/-- A failure other than a cancellation comes after the wait. -/
theorem awaitQueue_of_error [Scalar σ] [Tuned τ] {s : Sequencer τ σ} {texts : List (List Char)}
    {e : SubmitError τ} (h : (s.submit texts).result = .error e) (he : e ≠ .cancelled) :
    s.awaitQueue = (true, (s.submit texts).sequencer) := by
  rcases s.submit_cases texts with ⟨_, -, -, hr⟩ | ⟨after, _, ha, -, heq, -⟩ | ⟨_, -, -, -, hr⟩
  · rw [hr] at h
    cases h
    exact absurd rfl he
  · rw [heq]
    exact ha
  · rw [hr] at h
    cases h

theorem onlyWaited_of_error [Scalar σ] [Tuned τ] {s : Sequencer τ σ} {texts : List (List Char)}
    {e : SubmitError τ} (h : (s.submit texts).result = .error e) (he : e ≠ .cancelled) :
    OnlyWaited s (s.submit texts).sequencer := by
  have ha := awaitQueue_of_error h he
  have hframe := eq_of_awaitQueue ha
  refine ⟨by rw [ha], hframe, fun i => ?_, ?_⟩
  · rw [hframe]
    rfl
  · rw [hframe]
    rfl

/-- A cancelled submission did not reach the end of its wait. -/
theorem awaitQueue_of_cancelled [Scalar σ] [Tuned τ] {s : Sequencer τ σ}
    {texts : List (List Char)} (h : (s.submit texts).result = .error .cancelled) :
    s.awaitQueue = (false, (s.submit texts).sequencer) := by
  rcases s.submit_cases texts with ⟨after, ha, heq, -⟩ | ⟨after, e, -, hc, -, hr⟩ | ⟨_, -, -, -, hr⟩
  · rw [heq]
    exact ha
  · rw [hr] at h
    cases h
    exact absurd hc (after.commit_ne_cancelled _)
  · rw [hr] at h
    cases h

/-- A wait that does not reach its deadline cuts off what is playing. -/
theorem cutOff_of_awaitQueue [Scalar.Ordered τ] {s after : Sequencer τ σ}
    (ha : s.awaitQueue = (false, after)) : CutOff s after := by
  obtain ⟨_, time, -, hp, -, rfl⟩ := exists_of_awaitQueue_eq_false ha
  refine ⟨?_, fun i => ?_, ⟨time, hp, ?_⟩, handles_stop _, ?_, fun k => ?_, playing?_stop _,
    remaining_of_none (playing?_stop _)⟩
  · rw [stop_frame]
    rfl
  · rw [stop_frame]
    rfl
  · rw [clock_stop, now_waitedUntil_eq_ite]
  · rw [handle?_stop, clock_stop]
    rfl
  · rw [getElem?_stop, clock_stop]
    rfl

/-! ## Refusals -/

theorem stop_refuse (s : Sequencer τ σ) (reason : Option String) :
    (s.refuse reason).stop = s.stop.refuse reason := by
  cases hp : s.playback with
  | none => simp only [stop, refuse, hp]
  | some i => simp only [stop, refuse, hp]

/-- Whether the device takes phrases makes no difference to a wait. -/
theorem awaitQueue_refuse (s : Sequencer τ σ) (reason : Option String) :
    (s.refuse reason).awaitQueue = (s.awaitQueue.1, s.awaitQueue.2.refuse reason) := by
  have hx : (s.refuse reason).excess? = s.excess? := rfl
  unfold awaitQueue
  rw [hx]
  cases s.excess? with
  | none => rfl
  | some excess =>
    show (if (s.clock.wait (s.clock.now + excess) false).reached then _ else _) = _
    dsimp only
    split
    · rfl
    · rw [← stop_refuse]
      rfl

/-- What a submission does to a sequencer depends on the end of its wait only. -/
theorem submit_congr [Scalar σ] [Tuned τ] {s s' : Sequencer τ σ}
    (h : s.awaitQueue = s'.awaitQueue) (texts : List (List Char)) :
    (s.submit texts).result = (s'.submit texts).result ∧
      (s.submit texts).sequencer = (s'.submit texts).sequencer := by
  unfold submit
  rw [h]
  split
  · exact ⟨rfl, rfl⟩
  · dsimp only
    split <;> exact ⟨rfl, rfl⟩

end

/-! ## Waits in exact time -/

section

variable {σ : Type}

/-- After a wait the queue is within the ceiling. -/
theorem excess?_of_awaitQueue {s after : Sequencer Rat σ} (ha : s.awaitQueue = (true, after))
    (hc : s.setup.check = .ok ()) : after.excess? = none := by
  rcases s.awaitQueue_cases with ⟨hx, heq⟩ | ⟨excess, hx, -, heq⟩ | ⟨_, _, -, -, -, heq⟩ <;>
    rw [heq] at ha <;> cases ha
  · exact hx
  · obtain ⟨most, h, hm, -, hh, hpos, hsum⟩ := excess_of_some hx hc
    rw [Option.eq_none_iff_forall_not_mem]
    intro again hagain
    obtain ⟨most', h', hm', -, hh', hpos', hsum'⟩ := excess_of_some hagain hc
    have hmost : most' = most := by
      have := hm'.symm.trans hm
      cases this
      rfl
    have hhandle : h' = h := Option.some.inj (hh'.symm.trans hh)
    rw [now_waitedUntil, max_eq_right (by linarith), hmost, hhandle] at hsum'
    linarith

/-- A wait that reaches its deadline lasts as long as the queue exceeds the ceiling. -/
theorem now_of_awaitQueue {s after : Sequencer Rat σ} (ha : s.awaitQueue = (true, after))
    (hc : s.setup.check = .ok ()) : after.clock.now = s.clock.now + s.excess?.getD 0 := by
  rcases s.awaitQueue_cases with ⟨hx, heq⟩ | ⟨excess, hx, -, heq⟩ | ⟨_, _, -, -, -, heq⟩ <;>
    rw [heq] at ha <;> cases ha <;> rw [hx]
  · exact (add_zero _).symm
  · obtain ⟨_, _, -, -, -, hpos, -⟩ := excess_of_some hx hc
    rw [now_waitedUntil, max_eq_right (by linarith)]
    rfl

/-- Who has waited does not wait again. -/
theorem awaitQueue_of_awaitQueue {s after : Sequencer Rat σ} (ha : s.awaitQueue = (true, after))
    (hc : s.setup.check = .ok ()) : after.awaitQueue = (true, after) := by
  rw [awaitQueue, excess?_of_awaitQueue ha hc]

/-- A wait that does not reach its deadline ends what is playing. -/
theorem cutShort_of_awaitQueue {s after : Sequencer Rat σ} (ha : s.awaitQueue = (false, after))
    (hc : s.setup.check = .ok ()) : CutShort s after := by
  have hcut := cutOff_of_awaitQueue ha
  obtain ⟨excess, time, hx, hp, ht, rfl⟩ := exists_of_awaitQueue_eq_false ha
  obtain ⟨most, h, -, hmost, hh, hpos, hsum⟩ := excess_of_some hx hc
  have hnow : (s.waitedUntil time).stop.clock.now = max s.clock.now time := by
    rw [clock_stop, now_waitedUntil]
  -- the handle has not ended by the time of the press, so the stop is not idle
  have hlt : (s.waitedUntil time).stop.clock.now < h.finish := by
    rw [hnow]
    exact max_lt (by linarith) (by linarith)
  refine ⟨hcut, h, time, hh, hp, hnow, hlt, ?_, fun k => ?_⟩
  · rw [hcut.handle, hh, Option.map_some, if_neg (not_le.2 hlt)]
  · simp [hcut.entries, hh, hlt]

/-! ## Failures -/

/-- After a failure and a wait, a device that takes phrases again takes the same submission that it
would have taken at first. -/
theorem submit_again [Scalar σ] [Tuned Rat] {s after : Sequencer Rat σ}
    (ha : s.awaitQueue = (true, after)) (hc : s.setup.check = .ok ()) (texts : List (List Char)) :
    ((after.refuse none).submit texts).result = ((s.refuse none).submit texts).result ∧
      ((after.refuse none).submit texts).sequencer = ((s.refuse none).submit texts).sequencer := by
  apply submit_congr
  rw [awaitQueue_refuse, awaitQueue_refuse, awaitQueue_of_awaitQueue ha hc, ha]

/-- A submission that the device does not take has done nothing but wait, and a cancelled one has
cut off what was playing when it was cancelled. No voice moves on. In exact time the next attempt
gives what the first would have given, and there was something playing to cut off. -/
theorem failed_submission :
    (∀ {τ σ : Type} [Scalar τ] [Scalar σ] [Tuned τ] (s : Sequencer τ σ) (texts : List (List Char))
      (e : SubmitError τ), (s.submit texts).result = .error e → e ≠ .cancelled →
      OnlyWaited s (s.submit texts).sequencer) ∧
    (∀ {τ σ : Type} [Scalar τ] [Scalar.Ordered τ] [Scalar σ] [Tuned τ] (s : Sequencer τ σ)
      (texts : List (List Char)), (s.submit texts).result = .error .cancelled →
      CutOff s (s.submit texts).sequencer) ∧
    (∀ {σ : Type} [Scalar σ] [Tuned Rat] {setup : Setup Rat σ} {s : Sequencer Rat σ},
      Reachable setup s → ∀ (texts : List (List Char)) (e : SubmitError Rat),
      (s.submit texts).result = .error e →
      (e ≠ .cancelled →
        let after := (s.submit texts).sequencer
        after.clock.now = s.clock.now + s.excess?.getD 0 ∧
        ∃ sub, ((after.refuse none).submit texts).result = .ok sub ∧
          ((s.refuse none).submit texts).result = .ok sub ∧
          ((after.refuse none).submit texts).sequencer =
            ((s.refuse none).submit texts).sequencer) ∧
      (e = .cancelled → CutShort s (s.submit texts).sequencer)) := by
  refine ⟨fun s texts e => onlyWaited_of_error,
    fun s texts h => cutOff_of_awaitQueue (awaitQueue_of_cancelled h), ?_⟩
  intro σ _ _ setup s hr texts e he
  refine ⟨fun hne => ?_, fun hec => ?_⟩
  · obtain ⟨hsetup, hc⟩ := hr.setup_eq
    rw [← hsetup] at hc
    have ha := awaitQueue_of_error he hne
    obtain ⟨hresult, hsequencer⟩ := submit_again ha hc texts
    have hfirst : (s.refuse none).awaitQueue = (true, (s.submit texts).sequencer.refuse none) := by
      rw [awaitQueue_refuse, ha]
    obtain ⟨sub, hsub⟩ := submit_of_awaitQueue hfirst rfl (fun _ => rfl) texts
    exact ⟨now_of_awaitQueue ha hc, sub, by rw [hresult, hsub], hsub, hsequencer⟩
  · obtain ⟨hsetup, hc⟩ := hr.setup_eq
    rw [← hsetup] at hc
    rw [hec] at he
    exact cutShort_of_awaitQueue (awaitQueue_of_cancelled he) hc

end

section

open scoped Octaves

/-- A setup in which a submission waits until nothing is queued. -/
def impatient : Setup Rat Rat := { (.default : Setup Rat Rat) with maxQueued := .seconds 0 }

/-- A note, and then a device that takes no more. -/
def refused : Sequencer Rat Rat := (fresh impatient).run [.submit [['a']], .refuse (some "busy")]

/-- A note during which the stop handle will be pressed. -/
def pressed : Sequencer Rat Rat := (fresh impatient).run [.submit [['a']], .pressAt (some (1 / 4))]

theorem failed_submission_refused_pressed :
    (Reachable impatient refused ∧ OnlyWaited refused (refused.submit [['b']]).sequencer ∧
      (refused.submit [['b']]).sequencer.clock.now = 1 / 2) ∧
    Reachable impatient pressed ∧ CutShort pressed (pressed.submit [['b']]).sequencer := by
  obtain ⟨hwaited, -, hexact⟩ := failed_submission
  have hcreate : create impatient = .ok (fresh impatient) :=
    create_eq_ok_iff.2 ⟨by decide +kernel, rfl⟩
  have hrefused : Reachable impatient refused :=
    ⟨_, [.submit [['a']], .refuse (some "busy")], hcreate, ⟨trivial, trivial, trivial⟩, rfl⟩
  have hpressed : Reachable impatient pressed :=
    ⟨_, [.submit [['a']], .pressAt (some (1 / 4))], hcreate, ⟨trivial, trivial, trivial⟩, rfl⟩
  have hbusy : (refused.submit [['b']]).result = .error (.refused "busy") :=
    failure?_eq_some_iff.1 (by decide +kernel)
  have hcut : (pressed.submit [['b']]).result = .error .cancelled :=
    failure?_eq_some_iff.1 (by decide +kernel)
  refine ⟨⟨hrefused, hwaited _ _ _ hbusy nofun, ?_⟩, hpressed, (hexact hpressed _ _ hcut).2 rfl⟩
  rw [((hexact hrefused _ _ hbusy).1 nofun).1]
  decide +kernel

end

end MusicMacro.Sequencer
