import MusicMacro.Proofs.FailedSubmission

/-!
# Backpressure

A submission waits exactly until no more is queued than the ceiling allows. What it schedules then
comes on top, so that at any time no more is queued than the ceiling and one phrase.

The invariant is `Bounded`: the handle on what was submitted last ends no later than the ceiling and
the last phrase from now.

* `now_awaitQueue` — the time at which a wait ends.
* `nextStart_of_awaitQueue` — a wait does not delay what comes next.
* `Bounded.move` — every move keeps the invariant.
* `queue_bounded` — both, for every session whose clock is never set back.
-/

namespace MusicMacro.Sequencer

variable {σ : Type}

/-! ## Waiting for the ceiling -/

theorem excess?_eq_none_iff {s : Sequencer Rat σ} {most : Rat}
    (hm : s.setup.maxQueued = .seconds most) : s.excess? = none ↔ s.remaining ≤ most := by
  have hle : s.remaining - most ≤ 0 ↔ s.remaining ≤ most := sub_nonpos
  rw [excess?, hm, ← hle]
  dsimp only
  split
  · next h => exact iff_of_true rfl h
  · next h => exact iff_of_false nofun h

/-- A wait ends when what is playing has no more left than the ceiling, or at once. -/
theorem now_awaitQueue {s after : Sequencer Rat σ} {most : Rat}
    (ha : s.awaitQueue = (true, after)) (hc : s.setup.check = .ok ())
    (hm : s.setup.maxQueued = .seconds most) :
    after.clock.now = s.handle?.elim s.clock.now fun h => max s.clock.now (h.finish - most) := by
  rw [now_of_awaitQueue ha hc]
  cases hx : s.excess? with
  | some excess =>
    obtain ⟨most', h, hm', -, hh, hpos, hsum⟩ := excess_of_some hx hc
    rw [hm] at hm'
    cases hm'
    have hlt : s.clock.now < h.finish - most := by linarith
    rw [hh, Option.elim_some, max_eq_right hlt.le]
    exact hsum
  | none =>
    rw [Option.getD_none, add_zero]
    cases hh : s.handle? with
    | none => rfl
    | some h =>
      have hle := (excess?_eq_none_iff hm).1 hx
      rw [remaining_of_handle hh] at hle
      have hend : h.finish - most ≤ s.clock.now := by
        linarith [le_max_left (h.finish - s.clock.now) 0]
      exact (max_eq_left hend).symm

theorem remaining_of_awaitQueue {s after : Sequencer Rat σ} {most : Rat}
    (ha : s.awaitQueue = (true, after)) (hc : s.setup.check = .ok ())
    (hm : s.setup.maxQueued = .seconds most) : after.remaining ≤ most := by
  have hm' : after.setup.maxQueued = .seconds most := by rw [eq_of_awaitQueue ha, ← hm]
  exact (excess?_eq_none_iff hm').1 (excess?_of_awaitQueue ha hc)

/-- Where the queue is within the ceiling, nothing happens. -/
theorem eq_of_remaining_le {s after : Sequencer Rat σ} {most : Rat}
    (ha : s.awaitQueue = (true, after)) (hm : s.setup.maxQueued = .seconds most)
    (hle : s.remaining ≤ most) : after = s := by
  rw [awaitQueue, (excess?_eq_none_iff hm).2 hle] at ha
  cases ha
  rfl

/-- The next phrase starts when all that is queued has been played. -/
theorem nextStart_eq (s : Sequencer Rat σ) : s.nextStart = s.clock.now + s.remaining := by
  cases hh : s.handle? with
  | none => rw [nextStart_of_none hh, remaining_of_none (playing?_of_none hh), add_zero]
  | some h =>
    rw [nextStart_of_handle hh, remaining_of_handle hh, ← max_add_add_left, max_comm]
    congr 1 <;> ring

/-- A wait does not delay what comes next. -/
theorem nextStart_of_awaitQueue {s after : Sequencer Rat σ} (ha : s.awaitQueue = (true, after))
    (hc : s.setup.check = .ok ()) {h : Handle Rat} (hh : s.handle? = some h)
    (hlt : s.clock.now < h.finish) : after.nextStart = h.finish := by
  have hh' : after.handle? = some h := by
    rw [eq_of_awaitQueue ha, ← hh]
    rfl
  rw [nextStart_of_handle hh', now_of_awaitQueue ha hc]
  refine max_eq_right ?_
  cases hx : s.excess? with
  | none =>
    rw [Option.getD_none, add_zero]
    exact hlt.le
  | some excess =>
    obtain ⟨most, h', -, hmost, hh', -, hsum⟩ := excess_of_some hx hc
    rw [hh] at hh'
    cases hh'
    rw [Option.getD_some, hsum]
    linarith

/-! ## The last phrase -/

/-- The phrase that was scheduled last. -/
def lastPhrase? (s : Sequencer Rat σ) : Option (Phrase Rat σ) :=
  s.timeline.entries.getLast?.map (·.phrase)

/-- The duration of the phrase that was scheduled last; zero before the first one. -/
def lastDuration (s : Sequencer Rat σ) : Rat := s.lastPhrase?.elim 0 (·.duration)

theorem lastPhrase?_committed (s : Sequencer Rat σ) (parts : List (Part Rat σ)) :
    (s.committed parts).lastPhrase? = some (together parts) := by
  show (s.timeline.entries ++ [s.nextEntry (together parts)]).getLast?.map (·.phrase) = _
  rw [List.getLast?_concat]
  rfl

/-- What a submission schedules is the last phrase from then on. -/
theorem lastPhrase?_of_ok [Scalar σ] [Tuned Rat] {s : Sequencer Rat σ} {texts : List (List Char)}
    {sub : Submission Rat σ} (h : (s.submit texts).result = .ok sub) :
    (s.submit texts).sequencer.lastPhrase? = some sub.phrase := by
  obtain ⟨after, -, rfl, heq⟩ := submit_of_ok h
  rw [heq]
  exact lastPhrase?_committed _ _

/-- A stop cuts phrases off, but takes none away. -/
theorem lastPhrase?_stop (s : Sequencer Rat σ) : s.stop.lastPhrase? = s.lastPhrase? := by
  rcases s.stop_eq_or with ⟨heq, -⟩ | ⟨h, -, -, -, hget⟩
  · rw [heq]
  · have hphrases : s.stop.timeline.entries.map (·.phrase) = s.timeline.entries.map (·.phrase) := by
      refine List.ext_getElem? fun k => ?_
      rw [List.getElem?_map, List.getElem?_map, hget, Option.map_map]
      congr 1
      funext e
      show (if k ∈ h.parts then e.cut s.clock.now else e).phrase = e.phrase
      split <;> rfl
    rw [lastPhrase?, lastPhrase?, ← List.getLast?_map, ← List.getLast?_map, hphrases]

/-! ## The invariant -/

/-- The handle on what was submitted last ends no later than the ceiling and the duration of the
last phrase from now. -/
structure Bounded (most : Rat) (s : Sequencer Rat σ) : Prop where
  check : s.setup.check = .ok ()
  ceiling : s.setup.maxQueued = .seconds most
  last : 0 ≤ s.lastDuration
  finish_le : ∀ h, s.handle? = some h → h.finish ≤ s.clock.now + (most + s.lastDuration)

variable {most : Rat} {s s' : Sequencer Rat σ}

theorem Bounded.most_nonneg (hs : Bounded most s) : 0 ≤ most := ceiling_nonneg hs.check hs.ceiling

theorem Bounded.remaining_le (hs : Bounded most s) : s.remaining ≤ most + s.lastDuration := by
  have h0 : 0 ≤ most + s.lastDuration := add_nonneg hs.most_nonneg hs.last
  cases hh : s.handle? with
  | none =>
    rw [remaining_of_none (playing?_of_none hh)]
    exact h0
  | some h =>
    rw [remaining_of_handle hh]
    exact max_le (by linarith [hs.finish_le h hh]) h0

/-- Time passes. -/
theorem Bounded.later (hs : Bounded most s) (hsetup : s'.setup = s.setup)
    (ht : s'.timeline = s.timeline) (hp : s'.playback = s.playback)
    (hn : s.clock.now ≤ s'.clock.now) : Bounded most s' := by
  have hlast : s'.lastDuration = s.lastDuration := by
    rw [lastDuration, lastPhrase?, ht]
    rfl
  refine ⟨hsetup ▸ hs.check, hsetup ▸ hs.ceiling, hlast ▸ hs.last, fun h hh => ?_⟩
  rw [handle?_of_eq hp ht] at hh
  rw [hlast]
  linarith [hs.finish_le h hh]

theorem Bounded.stop (hs : Bounded most s) : Bounded most s.stop := by
  have hlast : s.stop.lastDuration = s.lastDuration := by rw [lastDuration, lastPhrase?_stop]; rfl
  refine ⟨s.setup_stop ▸ hs.check, s.setup_stop ▸ hs.ceiling, hlast ▸ hs.last, fun h' hh' => ?_⟩
  rw [clock_stop, hlast]
  rcases s.stop_eq_or with ⟨heq, -⟩ | ⟨h, -, -, hstop, -⟩
  · rw [heq] at hh'
    exact hs.finish_le h' hh'
  · -- the handle ends now
    rw [hstop] at hh'
    cases hh'
    exact le_add_of_nonneg_right (add_nonneg hs.most_nonneg hs.last)

theorem Bounded.waitedUntil (hs : Bounded most s) (time : Rat) :
    Bounded most (s.waitedUntil time) := by
  refine hs.later rfl rfl rfl ?_
  rw [now_waitedUntil]
  exact le_max_left _ _

theorem Bounded.awaitQueue (hs : Bounded most s) : Bounded most s.awaitQueue.2 := by
  rcases s.awaitQueue_cases with ⟨-, heq⟩ | ⟨_, _, -, heq⟩ | ⟨_, _, -, -, -, heq⟩ <;> rw [heq]
  · exact hs
  · exact hs.waitedUntil _
  · exact (hs.waitedUntil _).stop

/-- What is scheduled while the queue is within the ceiling keeps it within the ceiling and one
phrase. -/
theorem Bounded.committed (hs : Bounded most s) (hle : s.remaining ≤ most)
    (parts : List (Part Rat σ)) : Bounded most (s.committed parts) := by
  have hlast : (s.committed parts).lastDuration = (together parts).duration := by
    rw [lastDuration, lastPhrase?_committed]
    rfl
  refine ⟨hs.check, hs.ceiling, ?_, fun h hh => ?_⟩
  · rw [hlast]
    exact Phrase.duration_parallel_nonneg _
  · rw [handle?_committed] at hh
    cases hh
    rw [hlast, Entry.finish_of_none rfl]
    show s.nextStart + (together parts).duration ≤ s.clock.now + (most + (together parts).duration)
    rw [nextStart_eq]
    linarith

theorem Bounded.of_create {setup : Setup Rat σ} (hm : setup.maxQueued = .seconds most)
    (h : create setup = .ok s) : Bounded most s := by
  obtain ⟨hc, rfl⟩ := create_eq_ok_iff.1 h
  exact ⟨hc, hm, le_rfl, fun h hh => by simp [fresh, handle?] at hh⟩

section

variable [Scalar σ] [Tuned Rat]

theorem Bounded.submit (hs : Bounded most s) (texts : List (List Char)) :
    Bounded most (s.submit texts).sequencer := by
  have hw := hs.awaitQueue
  rcases s.submit_cases texts with ⟨after, ha, heq, -⟩ | ⟨after, e, ha, -, heq, -⟩ |
    ⟨after, ha, -, heq, -⟩ <;> rw [heq] <;> rw [ha] at hw
  · exact hw
  · exact hw
  · exact hw.committed (remaining_of_awaitQueue ha hs.check hs.ceiling) _

theorem Bounded.move (hs : Bounded most s) (m : Move Rat) (hm : m.Forward s) :
    Bounded most (s.move m) := by
  cases m with
  | submit texts => exact hs.submit texts
  | stop => exact hs.stop
  | setClock time => exact hs.later rfl rfl rfl hm
  | advanceClock duration => exact hs.later rfl rfl rfl (le_add_of_nonneg_right hm)
  | _ => exact hs.later rfl rfl rfl le_rfl

theorem Reachable.bounded {setup : Setup Rat σ} (h : Reachable setup s)
    (hm : setup.maxQueued = .seconds most) : Bounded most s := by
  obtain ⟨s₀, moves, h₀, hforward, rfl⟩ := h
  exact run_induction (fun s m hm hs => Bounded.move hs m hm) (Bounded.of_create hm h₀) hforward

/-- After its wait a submission takes no more time. -/
theorem clock_submit {s after : Sequencer Rat σ} (ha : s.awaitQueue = (true, after))
    (texts : List (List Char)) : (s.submit texts).sequencer.clock = after.clock := by
  rw [(submit_of_reached ha texts).2]
  cases hc : after.commit (after.compose texts) with
  | error e => rfl
  | ok r =>
    obtain ⟨-, hnext⟩ := commit_eq_ok hc
    show r.2.clock = after.clock
    rw [hnext]
    rfl

/-- A submission that is not cancelled is scheduled at the time at which no more is left of what is
playing than the ceiling, or at once if that time is over, and no more is queued then than the
ceiling. So in every session whose clock is never set back, no more is ever queued than the ceiling
and the last phrase. -/
theorem queue_bounded {setup : Setup Rat σ} (h : Reachable setup s)
    (hm : setup.maxQueued = .seconds most) :
    (∀ texts, (s.submit texts).result ≠ .error .cancelled →
      ∃ after : Sequencer Rat σ,
        (s.submit texts).result = (after.commit (after.compose texts)).map (·.1) ∧
        (s.submit texts).sequencer =
          (after.commit (after.compose texts)).toOption.elim after (·.2) ∧
        (s.submit texts).sequencer.clock = after.clock ∧
        (after.clock.now =
          s.handle?.elim s.clock.now fun h => max s.clock.now (h.finish - most)) ∧
        after.remaining ≤ most ∧
        after = { s with clock := after.clock, stopRequested := after.stopRequested } ∧
        (s.remaining ≤ most → after = s)) ∧
    (∀ texts sub, (s.submit texts).result = .ok sub →
      (s.submit texts).sequencer.lastPhrase? = some sub.phrase) ∧
    s.remaining ≤ most + s.lastDuration := by
  have hs := h.bounded hm
  refine ⟨fun texts hne => ?_, fun texts sub => lastPhrase?_of_ok, hs.remaining_le⟩
  obtain ⟨after, ha⟩ := awaitQueue_of_not_cancelled hne
  obtain ⟨hresult, hsequencer⟩ := submit_of_reached ha texts
  exact ⟨after, hresult, hsequencer, clock_submit ha texts, now_awaitQueue ha hs.check hs.ceiling,
    remaining_of_awaitQueue ha hs.check hs.ceiling, eq_of_awaitQueue ha,
    eq_of_remaining_le ha hs.ceiling⟩

end

section

open scoped Octaves

/-- A setup in which a quarter of a second may be queued. -/
def hasty : Setup Rat Rat := { (.default : Setup Rat Rat) with maxQueued := .seconds (1 / 4) }

/-- A note that is stopped, one after it, and one that has to wait. -/
def crowded : List (Move Rat) :=
  [.submit [['a']], .advanceClock (1 / 8), .stop, .submit [['b']], .submit [['c']]]

theorem queue_bounded_crowded :
    let s : Sequencer Rat Rat := (fresh hasty).run crowded
    Reachable hasty s ∧ s.clock.now = 3 / 8 ∧ s.remaining = 3 / 4 ∧
      s.remaining ≤ 1 / 4 + s.lastDuration ∧
      (s.submit [['d']]).sequencer.clock.now = 7 / 8 := by
  intro s
  have hs : Reachable hasty s := by
    refine ⟨fresh hasty, crowded, create_eq_ok_iff.2 ⟨by decide +kernel, rfl⟩, ?_, rfl⟩
    exact ⟨trivial, (by norm_num : (0 : Rat) ≤ 1 / 8), trivial, trivial, trivial, trivial⟩
  have hne : (s.submit [['d']]).result ≠ .error .cancelled := by
    intro h
    have hf := failure?_eq_some_iff.2 h
    revert hf
    decide +kernel
  obtain ⟨hsubmit, -, hle⟩ := queue_bounded hs rfl
  obtain ⟨after, -, -, hclock, hnow, -⟩ := hsubmit [['d']] hne
  refine ⟨hs, by decide +kernel, by decide +kernel, hle, ?_⟩
  rw [hclock, hnow]
  decide +kernel

end

end MusicMacro.Sequencer
