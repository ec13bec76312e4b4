import MusicMacro.Proofs.FailedSubmission

/-!
# Requests to stop

The stop handle may be pressed at any time, but a press counts only if it falls into the wait of a
submission. It cancels that submission and is used up. Any other press might as well not have
happened, also one that comes while a submission reads and schedules: nothing looks at a request
from the end of one wait to the beginning of the next.

* `seen` — a sequencer apart from the presses.
* `heeded` — a session without the presses that fall into no wait.
* `submit_seen` — a submission depends on what is seen and on the press that falls into its wait.
* `Shadows.skip`, `Shadows.move` — a sequencer that makes no idle press keeps up with one that does.
* `observations_heeded` — so no idle press changes anything in a session.
* `countP_heeded` — each of the others cancels one submission.
* `idle_presses_ignored` — that, and which submissions are cancelled.
-/

namespace MusicMacro.Sequencer

variable {τ σ : Type}

/-! ## What is seen -/

/-- All of a sequencer but the presses of the stop handle: no request, and no press that is due. -/
def seen (s : Sequencer τ σ) : Sequencer τ σ :=
  { s with clock := { s.clock with press := none }, stopRequested := false }

/-- A press of the stop handle, at once or at a time to come. -/
def Move.isPress : Move τ → Bool
  | .press | .pressAt (some _) => true
  | _ => false

variable [Scalar τ]

theorem seen_stop (s : Sequencer τ σ) : s.stop.seen = s.seen.stop := by
  cases hp : s.playback with
  | none => simp only [stop, seen, hp]
  | some i => simp only [stop, seen, hp]

/-- The press that falls into the wait of the next submission, if that waits and is pressed in
time. -/
def interruption? (s : Sequencer τ σ) : Option τ :=
  s.excess?.bind fun excess => s.clock.press.filter fun time => decide (time < s.clock.now + excess)

theorem interruption?_eq_some_iff {s : Sequencer τ σ} {time : τ} :
    s.interruption? = some time ↔
      ∃ excess, s.excess? = some excess ∧ s.clock.press = some time ∧
        time < s.clock.now + excess := by
  rw [interruption?, Option.bind_eq_some_iff]
  simp only [Option.filter_eq_some_iff, decide_eq_true_eq]

theorem interruption?_of_no_press {s : Sequencer τ σ} (hp : s.clock.press = none) :
    s.interruption? = none := by
  rw [Option.eq_none_iff_forall_not_mem]
  intro time ht
  obtain ⟨_, -, hp', -⟩ := interruption?_eq_some_iff.1 ht
  rw [hp] at hp'
  cases hp'

/-! ## What a submission depends on -/

theorem excess?_of_seen {s s' : Sequencer τ σ} (hs : s'.seen = s.seen) :
    s'.excess? = s.excess? := by
  show s'.seen.excess? = s.seen.excess?
  rw [hs]

omit [Scalar τ] in
theorem now_of_seen {s s' : Sequencer τ σ} (hs : s'.seen = s.seen) :
    s'.clock.now = s.clock.now := by
  show s'.seen.clock.now = s.seen.clock.now
  rw [hs]

/-- The same press falls into the wait, if it is due in both and no other is in the second. -/
theorem interruption?_of_seen {s s' : Sequencer τ σ} (hs : s'.seen = s.seen)
    (hp : s'.clock.press = if s.interruption?.isSome then s.clock.press else none) :
    s'.interruption? = s.interruption? := by
  cases hi : s.interruption? with
  | none =>
    rw [hi] at hp
    exact interruption?_of_no_press hp
  | some time =>
    rw [hi] at hp
    have hpress : s'.clock.press = s.clock.press := hp
    rw [interruption?, excess?_of_seen hs, now_of_seen hs, hpress]
    exact hi

/-- A wait lasts until its deadline, or until the press that falls into it. -/
theorem awaitQueue_eq (s : Sequencer τ σ) :
    s.awaitQueue =
      match s.excess?, s.interruption? with
      | none, _ => (true, s)
      | some excess, none => (true, s.waitedUntil (s.clock.now + excess))
      | some _, some time => (false, (s.waitedUntil time).stop) := by
  rcases s.awaitQueue_cases with ⟨hx, heq⟩ | ⟨excess, hx, hp, heq⟩ | ⟨excess, time, hx, hp, ht, heq⟩
  · rw [heq, hx]
  · have hi : s.interruption? = none := by
      rw [Option.eq_none_iff_forall_not_mem]
      intro time ht
      obtain ⟨excess', hx', hp', hlt⟩ := interruption?_eq_some_iff.1 ht
      rw [hx] at hx'
      cases hx'
      exact hp time hp' hlt
    rw [heq, hx, hi]
  · rw [heq, hx, interruption?_eq_some_iff.2 ⟨excess, hx, hp, ht⟩]

theorem awaitQueue_seen {s s' : Sequencer τ σ} (hs : s'.seen = s.seen)
    (hi : s'.interruption? = s.interruption?) :
    s'.awaitQueue.1 = s.awaitQueue.1 ∧ s'.awaitQueue.2.seen = s.awaitQueue.2.seen := by
  have hw (time : τ) : s'.waitedUntil time = s.waitedUntil time := by
    show s'.seen.waitedUntil time = s.seen.waitedUntil time
    rw [hs]
  rw [awaitQueue_eq s', awaitQueue_eq s, excess?_of_seen hs, hi, now_of_seen hs]
  cases s.excess? with
  | none => exact ⟨rfl, hs⟩
  | some excess =>
    cases s.interruption? with
    | none => exact ⟨rfl, congrArg seen (hw _)⟩
    | some time => exact ⟨rfl, congrArg (·.stop.seen) (hw time)⟩

/-- A wait reaches its deadline exactly if no press falls into it. -/
theorem fst_awaitQueue (s : Sequencer τ σ) : s.awaitQueue.1 = s.interruption?.isNone := by
  rw [awaitQueue_eq]
  cases hx : s.excess? with
  | none =>
    rw [interruption?, hx]
    rfl
  | some excess =>
    cases s.interruption? with
    | none => rfl
    | some time => rfl

/-- After a wait no press is due any more. -/
theorem press_awaitQueue (s : Sequencer τ σ) :
    s.awaitQueue.2.clock.press = if s.excess?.isSome then none else s.clock.press := by
  have hc (time : τ) : (s.waitedUntil time).clock.press = none := by
    unfold waitedUntil Clock.catchUp
    dsimp only
    split <;> rfl
  rw [awaitQueue_eq]
  cases s.excess? with
  | none => rfl
  | some excess =>
    cases s.interruption? with
    | none => exact hc _
    | some time => exact (congrArg Clock.press (clock_stop _)).trans (hc time)

section

variable [Scalar σ] [Tuned τ]

omit [Scalar σ] [Tuned τ] in
theorem commit_seen (s : Sequencer τ σ) (parts : List (Part τ σ)) :
    s.seen.commit parts = (s.commit parts).map fun r => (r.1, r.2.seen) := by
  have hrefusal : s.seen.refusal = s.refusal := rfl
  rw [commit_eq, commit_eq, hrefusal]
  cases s.refusal with
  | some reason => rfl
  | none =>
    have hstart : s.seen.nextStart = s.nextStart := rfl
    dsimp only
    rw [hstart]
    split <;> rfl

/-- A submission depends on what is seen, and on the press that falls into its wait. -/
theorem submit_seen {s s' : Sequencer τ σ} (hs : s'.seen = s.seen)
    (hi : s'.interruption? = s.interruption?) (texts : List (List Char)) :
    (s'.submit texts).result = (s.submit texts).result ∧
      (s'.submit texts).sequencer.seen = (s.submit texts).sequencer.seen := by
  obtain ⟨hreached, hafter⟩ := awaitQueue_seen hs hi
  unfold submit
  rcases hw : s.awaitQueue with ⟨reached, after⟩
  rcases hw' : s'.awaitQueue with ⟨reached', after'⟩
  rw [hw, hw'] at hreached hafter
  dsimp only at hreached hafter
  subst hreached
  cases reached' with
  | false => exact ⟨rfl, hafter⟩
  | true =>
    have hsetup : after'.seen.setup = after.seen.setup := by rw [hafter]
    have hvoice : ∀ i, after'.seen.voice? i = after.seen.voice? i := by
      intro i
      rw [hafter]
    have hcompose : after'.compose texts = after.compose texts := by
      refine compose_congr ?_ ?_ texts
      · exact hsetup
      · exact hvoice
    have hcommit := congrArg (commit · (after.compose texts)) hafter
    dsimp only at hcommit ⊢
    rw [commit_seen, commit_seen] at hcommit
    rw [hcompose]
    cases hc : after.commit (after.compose texts) with
    | error e =>
      cases hc' : after'.commit (after.compose texts) with
      | error e' =>
        rw [hc, hc'] at hcommit
        cases hcommit
        exact ⟨rfl, hafter⟩
      | ok r =>
        rw [hc, hc'] at hcommit
        cases hcommit
    | ok r =>
      cases hc' : after'.commit (after.compose texts) with
      | error e =>
        rw [hc, hc'] at hcommit
        cases hcommit
      | ok r' =>
        rw [hc, hc'] at hcommit
        obtain ⟨hsub, hseq⟩ := Prod.mk.inj (Except.ok.inj hcommit)
        exact ⟨congrArg Except.ok hsub, hseq⟩

/-- A submission is cancelled exactly if a press falls into its wait. -/
theorem submit_cancelled_iff {s : Sequencer τ σ} {texts : List (List Char)} :
    (s.submit texts).result = .error .cancelled ↔ s.interruption?.isSome := by
  have hq := s.fst_awaitQueue
  rcases s.submit_cases texts with ⟨after, ha, -, hr⟩ | ⟨after, e, ha, hc, -, hr⟩ |
    ⟨after, ha, -, -, hr⟩ <;> rw [ha] at hq <;> rw [hr]
  · simpa using hq.symm
  · have he : e ≠ .cancelled := fun h => after.commit_ne_cancelled _ (h ▸ hc)
    simpa [he] using hq.symm
  · simpa using hq.symm

/-! ## Sessions without idle presses -/

/-- The press that is due falls into a wait of the session. It does not if another takes its place
before, or if the first submission that waits reaches its deadline. -/
def falls (s : Sequencer τ σ) : List (Move τ) → Bool
  | [] => false
  | m :: moves =>
    match m with
    | .pressAt _ => false
    | .submit _ => if s.excess?.isSome then s.interruption?.isSome else (s.move m).falls moves
    | _ => (s.move m).falls moves

/-- Whether a move is a press of the stop handle that falls into no wait of the session that goes on
with other moves. One that happens between submissions never does. -/
def idle (s : Sequencer τ σ) (m : Move τ) (moves : List (Move τ)) : Bool :=
  match m with
  | .press => true
  | .pressAt (some _) => !(s.move m).falls moves
  | _ => false

/-- The session without the presses that fall into no wait. -/
def heeded (s : Sequencer τ σ) : List (Move τ) → List (Move τ)
  | [] => []
  | m :: moves =>
    if s.idle m moves then (s.move m).heeded moves else m :: (s.move m).heeded moves

/-- The result of a move, if it is a submission. -/
def result? (s : Sequencer τ σ) : Move τ → Option (Except (SubmitError τ) (Submission τ σ))
  | .submit texts => some (s.submit texts).result
  | _ => none

/-- What is seen of a session: after each move but the presses, its result and the sequencer, and
the sequencer at the end. -/
def observations (s : Sequencer τ σ) :
    List (Move τ) → List (Option (Except (SubmitError τ) (Submission τ σ)) × Sequencer τ σ)
  | [] => [(none, s.seen)]
  | m :: moves =>
    if m.isPress then (s.move m).observations moves
    else (s.result? m, (s.move m).seen) :: (s.move m).observations moves

/-! ### What moves do to presses -/

/-- A move that neither submits anything nor settles when the stop handle will be pressed. -/
def Move.isPlain : Move τ → Bool
  | .submit _ | .pressAt _ => false
  | _ => true

theorem press_submit (s : Sequencer τ σ) (texts : List (List Char)) :
    (s.submit texts).sequencer.clock.press = if s.excess?.isSome then none else s.clock.press := by
  rw [← press_awaitQueue]
  rcases s.submit_cases texts with ⟨after, ha, heq, -⟩ | ⟨after, e, ha, -, heq, -⟩ |
    ⟨after, ha, -, heq, -⟩ <;> rw [heq, ha]
  rfl

theorem press_of_isPlain (s : Sequencer τ σ) {m : Move τ} (hm : m.isPlain) :
    (s.move m).clock.press = s.clock.press := by
  cases m with
  | submit texts => cases hm
  | pressAt time => cases hm
  | stop => exact congrArg Clock.press (clock_stop s)
  | _ => rfl

theorem falls_of_isPlain (s : Sequencer τ σ) {m : Move τ} (hm : m.isPlain) (moves : List (Move τ)) :
    s.falls (m :: moves) = (s.move m).falls moves := by
  cases m with
  | submit texts => cases hm
  | pressAt time => cases hm
  | _ => rfl

/-- Where no press is due, none falls into a wait. -/
theorem falls_of_no_press {s : Sequencer τ σ} (hp : s.clock.press = none) (moves : List (Move τ)) :
    s.falls moves = false := by
  induction moves generalizing s with
  | nil => rfl
  | cons m moves ih =>
    by_cases hm : m.isPlain
    · rw [falls_of_isPlain s hm]
      exact ih ((press_of_isPlain s hm).trans hp)
    · cases m with
      | submit texts =>
        rw [falls, interruption?_of_no_press hp]
        split
        · rfl
        · refine ih ((press_submit s texts).trans ?_)
          rw [hp]
          exact ite_self _
      | pressAt time => rfl
      | _ => exact absurd rfl hm

/-- A move other than a submission depends on what is seen. -/
theorem move_seen (s : Sequencer τ σ) {m : Move τ} (hm : ∀ texts, m ≠ .submit texts) :
    (s.seen.move m).seen = (s.move m).seen := by
  cases m with
  | submit texts => exact absurd rfl (hm texts)
  | stop => exact (seen_stop s.seen).trans (seen_stop s).symm
  | _ => rfl

/-- A press is not seen. -/
theorem seen_of_isPress (s : Sequencer τ σ) {m : Move τ} (hm : m.isPress) :
    (s.move m).seen = s.seen := by
  cases m with
  | press => rfl
  | pressAt time => rfl
  | _ => cases hm

/-! ### Two sessions -/

theorem heeded_of_idle {s : Sequencer τ σ} {m : Move τ} {moves : List (Move τ)}
    (hi : s.idle m moves) : s.heeded (m :: moves) = (s.move m).heeded moves := by
  rw [heeded, if_pos hi]

theorem heeded_of_not_idle {s : Sequencer τ σ} {m : Move τ} {moves : List (Move τ)}
    (hi : s.idle m moves = false) : s.heeded (m :: moves) = m :: (s.move m).heeded moves := by
  rw [heeded, hi]
  rfl

theorem isPress_of_idle {s : Sequencer τ σ} {m : Move τ} {moves : List (Move τ)}
    (hi : s.idle m moves) : m.isPress := by
  cases m with
  | press => rfl
  | pressAt time =>
    cases time with
    | none => cases hi
    | some time => rfl
  | _ => cases hi

/-- A press at a time that is not idle is the one that falls into a wait. -/
theorem falls_of_not_idle {s : Sequencer τ σ} {time : τ} {moves : List (Move τ)}
    (hi : s.idle (.pressAt (some time)) moves = false) :
    (s.move (.pressAt (some time))).falls moves = true := by
  rw [idle, Bool.not_eq_eq_eq_not] at hi
  exact hi

/-- After an idle press the same press falls into a wait as before it. -/
theorem falls_of_idle {s : Sequencer τ σ} {m : Move τ} {moves : List (Move τ)}
    (hi : s.idle m moves) : s.falls (m :: moves) = (s.move m).falls moves := by
  cases m with
  | press => rfl
  | pressAt time =>
    cases time with
    | none => cases hi
    | some time =>
      rw [idle, Bool.not_eq_eq_eq_not] at hi
      exact hi.symm
  | _ => cases hi

/-- The second sequencer looks like the first, and a press is due in it only if it falls into a wait
of the session to come. -/
structure Shadows (s s' : Sequencer τ σ) (moves : List (Move τ)) : Prop where
  seen : s'.seen = s.seen
  press : s'.clock.press = if s.falls moves then s.clock.press else none

variable {s s' : Sequencer τ σ} {moves : List (Move τ)}

/-- The second sequencer need not make an idle press. -/
theorem Shadows.skip {m : Move τ} (h : Shadows s s' (m :: moves)) (hi : s.idle m moves) :
    Shadows (s.move m) s' moves := by
  refine ⟨h.seen.trans (seen_of_isPress s (isPress_of_idle hi)).symm, ?_⟩
  cases m with
  | press => exact h.press
  | pressAt time =>
    have hnone : s'.clock.press = none := h.press
    rw [← falls_of_idle hi, hnone]
    rfl
  | _ => cases hi

theorem Shadows.plain {m : Move τ} (h : Shadows s s' (m :: moves)) (hm : m.isPlain) :
    Shadows (s.move m) (s'.move m) moves := by
  have hsubmit : ∀ texts, m ≠ .submit texts := by
    rintro texts rfl
    cases hm
  refine ⟨?_, ?_⟩
  · rw [← move_seen s' hsubmit, ← move_seen s hsubmit, h.seen]
  · rw [press_of_isPlain s' hm, press_of_isPlain s hm, h.press, falls_of_isPlain s hm]

/-- The same press falls into the wait of both, and after it none is due. -/
theorem Shadows.submit {texts : List (List Char)} (h : Shadows s s' (.submit texts :: moves)) :
    (s'.submit texts).result = (s.submit texts).result ∧
      Shadows (s.submit texts).sequencer (s'.submit texts).sequencer moves := by
  have hpress := h.press
  rw [falls] at hpress
  have hi : s'.interruption? = s.interruption? := by
    cases hx : s.excess? with
    | none => rw [interruption?, interruption?, excess?_of_seen h.seen, hx]; rfl
    | some excess =>
      rw [hx] at hpress
      exact interruption?_of_seen h.seen hpress
  obtain ⟨hresult, hseen⟩ := submit_seen h.seen hi texts
  refine ⟨hresult, hseen, ?_⟩
  rw [press_submit, press_submit, excess?_of_seen h.seen]
  cases hx : s.excess? with
  | none =>
    rw [hx] at hpress
    exact hpress
  | some excess => exact (ite_self _).symm

/-- Both sequencers make any other move, and give the same result. -/
theorem Shadows.move {m : Move τ} (h : Shadows s s' (m :: moves)) (hi : s.idle m moves = false) :
    s'.result? m = s.result? m ∧ Shadows (s.move m) (s'.move m) moves := by
  cases m with
  | submit texts =>
    obtain ⟨hresult, hshadows⟩ := h.submit
    exact ⟨congrArg some hresult, hshadows⟩
  | press => cases hi
  | pressAt time =>
    refine ⟨rfl, h.seen, ?_⟩
    cases time with
    | none => exact (ite_self _).symm
    | some time =>
      rw [falls_of_not_idle hi]
      rfl
  | _ => exact ⟨rfl, h.plain rfl⟩

/-- A session is seen to be the same without its idle presses. -/
theorem observations_heeded (moves : List (Move τ)) (h : Shadows s s' moves) :
    s'.observations (s.heeded moves) = s.observations moves := by
  induction moves generalizing s s' with
  | nil => exact congrArg (fun x => [(none, x)]) h.seen
  | cons m moves ih =>
    cases hi : s.idle m moves with
    | true =>
      rw [heeded_of_idle hi, observations, if_pos (isPress_of_idle hi)]
      exact ih (h.skip hi)
    | false =>
      obtain ⟨hresult, hmove⟩ := h.move hi
      rw [heeded_of_not_idle hi, observations, observations, hresult, hmove.seen, ih hmove]

/-- No move but presses is missing. -/
theorem filter_heeded (s : Sequencer τ σ) (moves : List (Move τ)) :
    (s.heeded moves).filter (!·.isPress) = moves.filter (!·.isPress) := by
  induction moves generalizing s with
  | nil => rfl
  | cons m moves ih =>
    cases hi : s.idle m moves with
    | true =>
      rw [heeded_of_idle hi, ih, List.filter_cons, isPress_of_idle hi]
      rfl
    | false => rw [heeded_of_not_idle hi, List.filter_cons, List.filter_cons, ih]

/-! ### Cancellations -/

/-- Whether a submission is seen to be cancelled. -/
def wasCancelled :
    Option (Except (SubmitError τ) (Submission τ σ)) × Sequencer τ σ → Bool
  | (some (.error .cancelled), _) => true
  | _ => false

theorem wasCancelled_submit (s s' : Sequencer τ σ) (texts : List (List Char)) :
    wasCancelled (s.result? (.submit texts), s') = s.interruption?.isSome := by
  have hiff : (s.submit texts).result = .error .cancelled ↔ s.interruption?.isSome :=
    submit_cancelled_iff
  rw [Bool.eq_iff_iff, ← hiff, result?]
  cases (s.submit texts).result with
  | ok sub => simp [wasCancelled]
  | error e => cases e <;> simp [wasCancelled]

theorem wasCancelled_of_isPress (s s' : Sequencer τ σ) {m : Move τ} (hm : m.isPress) :
    wasCancelled (s.result? m, s') = false := by
  cases m with
  | press => rfl
  | pressAt time => rfl
  | _ => cases hm

/-- What a move other than an idle press does to the number of presses that are still to fall into
a wait: a press adds one, and a submission that is cancelled uses one up. -/
theorem falls_move {m : Move τ} (hi : s.idle m moves = false) :
    (if m.isPress then 1 else 0) + (s.falls (m :: moves)).toNat =
      ((s.move m).falls moves).toNat +
        if wasCancelled (s.result? m, (s.move m).seen) then 1 else 0 := by
  cases m with
  | submit texts =>
    rw [wasCancelled_submit, falls]
    cases hx : s.excess? with
    | none =>
      have hn : s.interruption? = none := by rw [interruption?, hx]; rfl
      rw [hn]
      exact Nat.zero_add _
    | some excess =>
      have hp : (s.move (.submit texts)).clock.press = none := by
        show (s.submit texts).sequencer.clock.press = none
        rw [press_submit, hx]
        rfl
      rw [falls_of_no_press hp]
      cases s.interruption? <;> rfl
  | press => cases hi
  | pressAt time =>
    cases time with
    | none => rw [falls_of_no_press (s := s.move (.pressAt none)) rfl]; rfl
    | some time =>
      rw [falls_of_not_idle hi]
      rfl
  | _ => exact Nat.zero_add _

/-- Each press that falls into a wait cancels one submission, and nothing else cancels any. -/
theorem countP_heeded (s : Sequencer τ σ) (moves : List (Move τ)) :
    (s.heeded moves).countP Move.isPress + (s.falls moves).toNat =
      (s.observations moves).countP wasCancelled := by
  induction moves generalizing s with
  | nil => rfl
  | cons m moves ih =>
    have hstep := ih (s.move m)
    cases hi : s.idle m moves with
    | true =>
      rw [heeded_of_idle hi, falls_of_idle hi, observations, if_pos (isPress_of_idle hi), hstep]
    | false =>
      have hmove := falls_move hi
      rw [heeded_of_not_idle hi, List.countP_cons, observations]
      cases hm : m.isPress with
      | true =>
        rw [hm, wasCancelled_of_isPress s _ hm] at hmove
        rw [if_pos rfl, if_pos rfl, ← hstep]
        rw [if_pos rfl, if_neg nofun] at hmove
        omega
      | false =>
        rw [hm] at hmove
        rw [if_neg nofun, if_neg nofun, List.countP_cons, ← hstep]
        rw [if_neg nofun] at hmove
        omega

/-- Without the presses that fall into no wait, a session is seen to be the same from its first move
to its last: every result, every voice, the timeline, its handles and the clock. Each press that is
left cancels one submission. A submission is cancelled exactly if it waits and a press falls into
its wait. -/
theorem idle_presses_ignored {setup : Setup τ σ} {s : Sequencer τ σ} (h : create setup = .ok s)
    (moves : List (Move τ)) :
    (s.heeded moves).filter (!·.isPress) = moves.filter (!·.isPress) ∧
    s.observations (s.heeded moves) = s.observations moves ∧
    (s.heeded moves).countP Move.isPress = (s.observations moves).countP wasCancelled ∧
    ∀ texts, ((s.run moves).submit texts).result = .error .cancelled ↔
      ∃ excess time, (s.run moves).excess? = some excess ∧
        (s.run moves).clock.press = some time ∧ time < (s.run moves).clock.now + excess := by
  obtain ⟨-, rfl⟩ := create_eq_ok_iff.1 h
  have hp : (fresh setup).clock.press = none := rfl
  have hf : (fresh setup).falls moves = false := falls_of_no_press hp moves
  have hshadows : Shadows (fresh setup) (fresh setup) moves := ⟨rfl, by rw [hf, hp]; rfl⟩
  refine ⟨filter_heeded _ _, observations_heeded moves hshadows, ?_, fun texts => ?_⟩
  · rw [← countP_heeded, hf]
    rfl
  · rw [submit_cancelled_iff, Option.isSome_iff_exists]
    simp only [interruption?_eq_some_iff]
    exact exists_comm

end

section

open scoped Octaves

/-- Presses before, between and after submissions, one that is replaced before it is due, one that
cuts a wait short, and one that comes after a wait. -/
def pressedOften : List (Move Rat) :=
  [.press, .submit [['a']], .press, .pressAt (some (1 / 4)), .pressAt (some (1 / 8)),
    .submit [['b']], .press, .submit [['c']], .pressAt (some 2), .submit [['d']]]

theorem idle_presses_ignored_often :
    let s : Sequencer Rat Rat := fresh impatient
    create impatient = .ok s ∧
      (s.heeded pressedOften).map Move.isPress = [false, true, false, false, false] ∧
      s.observations (s.heeded pressedOften) = s.observations pressedOften ∧
      ((s.run (pressedOften.take 5)).submit [['b']]).result = .error .cancelled := by
  intro s
  have hcreate : create impatient = .ok s := create_eq_ok_iff.2 ⟨by decide +kernel, rfl⟩
  refine ⟨hcreate, by decide +kernel, (idle_presses_ignored hcreate pressedOften).2.1, ?_⟩
  exact ((idle_presses_ignored hcreate (pressedOften.take 5)).2.2.2 [['b']]).2
    ⟨1 / 2, 1 / 8, by decide +kernel, by decide +kernel, by decide +kernel⟩

end

end MusicMacro.Sequencer
