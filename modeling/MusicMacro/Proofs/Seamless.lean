import MusicMacro.Proofs.Playing

/-!
# Seamless timelines

Whatever happens to a sequencer whose clock is never set back, each phrase starts where the one
before it ends, or later, and no two of them overlap.

The invariant is `Seamless`: what sounds beyond now belongs to the handle on what was submitted
last, and ends no later than that handle.

* `Seamless.move` — every move keeps the invariant.
* `spans_of_submit` — a submission adds one entry, where what is playing ends or now.
* `timeline_seamless` — both, and what a stop leaves, for every session.
-/

namespace MusicMacro

/-! ## Order -/

namespace Timeline

variable {σ : Type}

/-- No two entries overlap. -/
def Ordered (t : Timeline Rat σ) : Prop :=
  ∀ (i j : Nat) (a b : Entry Rat σ), i < j → t.entries[i]? = some a → t.entries[j]? = some b →
    a.finish ≤ b.start

/-- Entries may end earlier than they did. -/
theorem Ordered.of_shorter {t t' : Timeline Rat σ} (ho : t.Ordered)
    (hs : ∀ (k : Nat) (e' : Entry Rat σ), t'.entries[k]? = some e' →
      ∃ e, t.entries[k]? = some e ∧ e'.start = e.start ∧ e'.finish ≤ e.finish) : t'.Ordered := by
  intro i j a b hij ha hb
  obtain ⟨a', ha', -, hle⟩ := hs i a ha
  obtain ⟨b', hb', hstart, -⟩ := hs j b hb
  rw [hstart]
  exact le_trans hle (ho i j a' b' hij ha' hb')

theorem Ordered.add {t : Timeline Rat σ} (ho : t.Ordered) {e : Entry Rat σ}
    (he : ∀ (k : Nat) (a : Entry Rat σ), t.entries[k]? = some a → a.finish ≤ e.start)
    (parts : List Nat) (start : Rat) : (t.add e parts start).Ordered := by
  intro i j a b hij ha hb
  rw [Timeline.add, List.getElem?_append] at ha hb
  by_cases hj : j < t.entries.length
  · rw [if_pos hj] at hb
    rw [if_pos (by omega)] at ha
    exact ho i j a b hij ha hb
  · rw [if_neg hj] at hb
    rw [List.getElem?_singleton] at hb
    split at hb
    · next hj' =>
      cases hb
      rw [if_pos (by omega)] at ha
      exact he i a ha
    · cases hb

end Timeline

/-! ## The invariant -/

namespace Sequencer

variable {σ : Type}

/-- No two entries overlap, and the handle on what was submitted last covers all that sounds
beyond now. -/
structure Seamless (s : Sequencer Rat σ) : Prop where
  ordered : s.timeline.Ordered
  covered : ∀ (k : Nat) (e : Entry Rat σ), s.timeline.entries[k]? = some e →
    s.clock.now < e.finish → ∃ h, s.handle? = some h ∧ k ∈ h.parts ∧ e.finish ≤ h.finish

/-- Everything that was scheduled has ended when the next phrase starts. -/
theorem Seamless.finish_le_nextStart {s : Sequencer Rat σ} (hs : s.Seamless) {k : Nat}
    {e : Entry Rat σ} (he : s.timeline.entries[k]? = some e) : e.finish ≤ s.nextStart := by
  by_cases hlt : s.clock.now < e.finish
  · obtain ⟨h, hh, -, hle⟩ := hs.covered k e he hlt
    rw [nextStart_of_handle hh]
    exact le_trans hle (le_max_right _ _)
  · exact le_trans (not_lt.1 hlt) s.now_le_nextStart

/-! ## What keeps the invariant -/

/-- Time passes. -/
theorem Seamless.later {s s' : Sequencer Rat σ} (hs : s.Seamless) (ht : s'.timeline = s.timeline)
    (hp : s'.playback = s.playback) (hn : s.clock.now ≤ s'.clock.now) : s'.Seamless := by
  refine ⟨ht ▸ hs.ordered, fun k e he hlt => ?_⟩
  rw [handle?_of_eq hp ht]
  rw [ht] at he
  exact hs.covered k e he (lt_of_le_of_lt hn hlt)

theorem Seamless.stop {s : Sequencer Rat σ} (hs : s.Seamless) : s.stop.Seamless := by
  rcases s.stop_eq_or with ⟨heq, -⟩ | ⟨h, hh, -, -, hget⟩
  · rw [heq]
    exact hs
  refine ⟨hs.ordered.of_shorter fun k e' he' => ?_, fun k e' he' hlt => ?_⟩
  · rw [hget] at he'
    obtain ⟨e, he, rfl⟩ := Option.map_eq_some_iff.1 he'
    refine ⟨e, he, ?_⟩
    split
    · exact ⟨rfl, by rw [Entry.finish_cut]; exact min_le_left _ _⟩
    · exact ⟨rfl, le_rfl⟩
  · rw [hget] at he'
    obtain ⟨e, he, rfl⟩ := Option.map_eq_some_iff.1 he'
    rw [clock_stop] at hlt
    -- what the handle covers is cut off now, and nothing else sounds beyond now
    by_cases hk : k ∈ h.parts
    · rw [if_pos hk, Entry.finish_cut] at hlt
      exact absurd (min_le_right _ _) (not_le.2 hlt)
    · rw [if_neg hk] at hlt
      obtain ⟨h', hh', hk', -⟩ := hs.covered k e he hlt
      rw [hh] at hh'
      cases hh'
      exact absurd hk' hk

theorem nextStart_le_finish (s : Sequencer Rat σ) (parts : List (Part Rat σ)) :
    s.nextStart ≤ (s.nextEntry (together parts)).finish := by
  rw [Entry.finish_of_none rfl]
  exact le_add_of_nonneg_right (Phrase.duration_parallel_nonneg _)

theorem Seamless.committed {s : Sequencer Rat σ} (hs : s.Seamless) (parts : List (Part Rat σ)) :
    (s.committed parts).Seamless := by
  refine ⟨hs.ordered.add (fun k a ha => hs.finish_le_nextStart ha) _ _, fun k e he hlt => ?_⟩
  refine ⟨_, s.handle?_committed parts, ?_⟩
  change (s.timeline.entries ++ [_])[k]? = some e at he
  rw [List.getElem?_append] at he
  by_cases hk : k < s.timeline.entries.length
  · rw [if_pos hk] at he
    obtain ⟨h, hh, hmem, hle⟩ := hs.covered k e he hlt
    have hp : s.playing? = some h := playing?_eq_some_iff.2 ⟨hh, lt_of_lt_of_le hlt hle⟩
    refine ⟨?_, le_trans (hs.finish_le_nextStart he) (s.nextStart_le_finish parts)⟩
    rw [hp]
    exact List.mem_append_left _ hmem
  · rw [if_neg hk, List.getElem?_singleton] at he
    split at he
    · next hk' =>
      cases he
      rw [show k = s.timeline.entries.length by omega]
      exact ⟨List.mem_append_right _ List.mem_cons_self, le_rfl⟩
    · cases he

theorem now_waitedUntil (s : Sequencer Rat σ) (time : Rat) :
    (s.waitedUntil time).clock.now = max s.clock.now time := Clock.now_catchUp _ _

theorem Seamless.waitedUntil {s : Sequencer Rat σ} (hs : s.Seamless) (time : Rat) :
    (s.waitedUntil time).Seamless := by
  refine hs.later rfl rfl ?_
  rw [now_waitedUntil]
  exact le_max_left _ _

theorem Seamless.awaitQueue {s : Sequencer Rat σ} (hs : s.Seamless) : s.awaitQueue.2.Seamless := by
  rcases s.awaitQueue_cases with ⟨-, heq⟩ | ⟨_, _, -, heq⟩ | ⟨_, _, -, -, -, heq⟩ <;> rw [heq]
  · exact hs
  · exact hs.waitedUntil _
  · exact (hs.waitedUntil _).stop

theorem Seamless.of_create {setup : Setup Rat σ} {s : Sequencer Rat σ} (h : create setup = .ok s) :
    s.Seamless := by
  obtain ⟨-, rfl⟩ := create_eq_ok_iff.1 h
  exact ⟨fun i j a b _ ha => by simp [fresh, Timeline.empty] at ha,
    fun k e he => by simp [fresh, Timeline.empty] at he⟩

/-- After a stop everything that was scheduled has ended. -/
theorem Seamless.finish_stop_le {s : Sequencer Rat σ} (hs : s.Seamless) {k : Nat}
    {e : Entry Rat σ} (he : s.stop.timeline.entries[k]? = some e) : e.finish ≤ s.clock.now := by
  have hle := hs.stop.finish_le_nextStart he
  rw [nextStart, playing?_stop, clock_stop] at hle
  exact hle

theorem spans_extended (s : Sequencer Rat σ) (p : Phrase Rat σ) :
    (s.extended p).spans = s.timeline.spans ++ [(s.nextStart, (s.nextEntry p).finish)] := by
  rw [extended, Timeline.add, Timeline.spans, List.map_append]
  rfl

section

variable [Scalar σ] [Tuned Rat]

theorem Seamless.submit {s : Sequencer Rat σ} (hs : s.Seamless) (texts : List (List Char)) :
    (s.submit texts).sequencer.Seamless := by
  have hw := hs.awaitQueue
  rcases s.submit_cases texts with ⟨after, ha, heq, -⟩ | ⟨after, e, ha, -, heq, -⟩ |
    ⟨after, ha, -, heq, -⟩ <;> rw [heq] <;> rw [ha] at hw
  · exact hw
  · exact hw
  · exact hw.committed _

theorem Seamless.move {s : Sequencer Rat σ} (hs : s.Seamless) (m : Move Rat) (hm : m.Forward s) :
    (s.move m).Seamless := by
  cases m with
  | submit texts => exact hs.submit texts
  | stop => exact hs.stop
  | press => exact hs.later rfl rfl le_rfl
  | reset => exact hs.later rfl rfl le_rfl
  | setClock time => exact hs.later rfl rfl hm
  | advanceClock duration => exact hs.later rfl rfl (le_add_of_nonneg_right hm)
  | pressAt time => exact hs.later rfl rfl le_rfl
  | refuse reason => exact hs.later rfl rfl le_rfl

theorem Reachable.seamless {setup : Setup Rat σ} {s : Sequencer Rat σ} (h : Reachable setup s) :
    s.Seamless := by
  obtain ⟨s₀, moves, h₀, hm, rfl⟩ := h
  exact run_induction (fun s m hm hs => Seamless.move hs m hm) (Seamless.of_create h₀) hm

/-! ## What the invariant says -/

/-- A submission adds one entry. It starts where the handle before ends, if that is later than the
time at which it is scheduled, and otherwise at that time. -/
theorem spans_of_submit {s : Sequencer Rat σ} {texts : List (List Char)} {sub : Submission Rat σ}
    (h : (s.submit texts).result = .ok sub) :
    (s.submit texts).sequencer.timeline.spans = s.timeline.spans ++ [(sub.start, sub.finish)] ∧
      sub.start = s.handle?.elim (s.submit texts).sequencer.clock.now
        fun h => max (s.submit texts).sequencer.clock.now h.finish := by
  obtain ⟨after, ha, rfl, heq⟩ := submit_of_ok h
  have hafter := eq_of_awaitQueue ha
  have hh : after.handle? = s.handle? := by rw [hafter]; rfl
  have ht : after.timeline = s.timeline := by rw [hafter]
  rw [heq, ← ht, ← hh]
  refine ⟨spans_extended after _, ?_⟩
  show after.nextStart = after.handle?.elim after.clock.now fun h => max after.clock.now h.finish
  cases hn : after.handle? with
  | none => exact nextStart_of_none hn
  | some h => exact nextStart_of_handle hn

/-- In every session whose clock is never set back, a submission adds the one entry of its own
times, which starts where the handle before ends or now, no two entries overlap, and a stop leaves
nothing that sounds later and nothing that is queued. Only a device that refuses phrases and a
press of the stop handle keep a submission from its success. -/
theorem timeline_seamless {setup : Setup Rat σ} {s : Sequencer Rat σ} (h : Reachable setup s) :
    (∀ texts sub, (s.submit texts).result = .ok sub →
      (s.submit texts).sequencer.timeline.spans = s.timeline.spans ++ [(sub.start, sub.finish)] ∧
      sub.start =
        let now := (s.submit texts).sequencer.clock.now
        s.handle?.elim now fun h => if now < h.finish then h.finish else now) ∧
    (∀ texts, s.refusal = none → s.clock.press = none →
      ∃ sub, (s.submit texts).result = .ok sub) ∧
    (∀ (i j : Nat) (a b : Rat × Rat), i < j → s.timeline.spans[i]? = some a →
      s.timeline.spans[j]? = some b → a.2 ≤ b.1) ∧
    (∀ span ∈ s.stop.timeline.spans, span.2 ≤ s.clock.now) ∧ s.stop.remaining = 0 := by
  have hs := h.seamless
  refine ⟨fun texts sub hsub => ?_, fun texts hr hp => ?_, ?_, ?_,
    remaining_of_none (playing?_stop s)⟩
  · obtain ⟨hspans, hstart⟩ := spans_of_submit hsub
    refine ⟨hspans, ?_⟩
    rw [hstart]
    cases s.handle? with
    | none => rfl
    | some h => exact max_def_lt _ _
  · obtain ⟨after, ha⟩ := awaitQueue_of_no_press hp
    exact submit_of_awaitQueue ha hr (fun _ => rfl) texts
  · intro i j a b hij ha hb
    rw [Timeline.spans, List.getElem?_map, Option.map_eq_some_iff] at ha hb
    obtain ⟨x, hx, rfl⟩ := ha
    obtain ⟨y, hy, rfl⟩ := hb
    exact hs.ordered i j x y hij hx hy
  · intro span hspan
    obtain ⟨e, he, rfl⟩ := List.mem_map.1 hspan
    obtain ⟨k, hk⟩ := List.getElem?_of_mem he
    exact hs.finish_stop_le hk

end

section

open scoped Octaves

/-- Two voices, of which the longer one is stopped halfway, and a phrase after a pause. -/
def interrupted : List (Move Rat) :=
  [.submit [['a', '8'], ['a']], .advanceClock (1 / 4), .stop, .advanceClock 1,
    .submit [['>', 'a']]]

theorem timeline_seamless_interrupted :
    let s : Sequencer Rat Rat := (fresh .default).run interrupted
    Reachable .default s ∧ s.timeline.spans = [(0, 1 / 4), (5 / 4, 7 / 4)] ∧
      (∃ sub, (s.submit [['a']]).result = .ok sub) ∧ s.stop.remaining = 0 := by
  intro s
  have hs : Reachable .default s := by
    refine ⟨fresh .default, interrupted, create_eq_ok_iff.2 ⟨by decide +kernel, rfl⟩, ?_, rfl⟩
    exact ⟨trivial, (by norm_num : (0 : Rat) ≤ 1 / 4), trivial, (by norm_num : (0 : Rat) ≤ 1),
      trivial, trivial⟩
  obtain ⟨-, hok, -, -, hstop⟩ := timeline_seamless hs
  exact ⟨hs, by decide +kernel, hok _ (by decide +kernel) (by decide +kernel), hstop⟩

end

end Sequencer

end MusicMacro
