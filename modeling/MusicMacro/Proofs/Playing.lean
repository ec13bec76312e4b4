import Mathlib.Tactic.Ring
import MusicMacro.Proofs.Exact
import MusicMacro.Proofs.Order
import MusicMacro.Proofs.Session

/-!
# What is playing

A sequencer either plays the handle on what was submitted last, or nothing. A stop ends what plays,
whatever the times are. In exact time the end of the handle says when the next phrase starts, how
much is queued, and how long a submission waits.

* `stop_eq_or` — a stop changes nothing, or it ends what is playing now.
* `playing?_stop` — nothing plays after a stop.
* `nextStart_of_handle`, `remaining_of_handle` — both by the end of the handle.
* `excess_of_some` — a wait is for the time at which the queue is down to the ceiling.
-/

namespace MusicMacro

section

variable {τ σ : Type} [Scalar τ]

/-- A handle that has ended stays as it is, and every other is cut off with all its entries. -/
theorem Timeline.stop_cases (t : Timeline τ σ) {i : Nat} {h : Handle τ}
    (hi : t.handles[i]? = some h) (time : τ) :
    (h.finish ≤ time ∧ t.stop i time = t) ∨
    (¬h.finish ≤ time ∧ (t.stop i time).handles = t.handles.set i (h.stop time) ∧
      ∀ k : Nat, (t.stop i time).entries[k]? =
        t.entries[k]?.map fun e => if k ∈ h.parts then e.cut time else e) := by
  by_cases hf : h.finish ≤ time
  · exact .inl ⟨hf, stop_of_finished hi hf⟩
  · refine .inr ⟨hf, ?_, fun k => ?_⟩
    · simp [stop, hi, hf]
    · simp only [stop, hi, if_neg hf, List.getElem?_mapIdx]

namespace Sequencer

/-! ## Stops -/

theorem stop_of_playback {s : Sequencer τ σ} {i : Nat} (hp : s.playback = some i) :
    s.stop = { s with timeline := s.timeline.stop i s.clock.now } := by
  unfold stop
  split
  · next j hj =>
    rw [hp] at hj
    cases hj
    rfl
  · next hj =>
    rw [hp] at hj
    cases hj

/-- A stop changes nothing, or it ends what is playing now. -/
theorem stop_eq_or (s : Sequencer τ σ) :
    (s.stop = s ∧ ∀ h, s.handle? = some h → h.finish ≤ s.clock.now) ∨
    ∃ h, s.handle? = some h ∧ ¬h.finish ≤ s.clock.now ∧
      s.stop.handle? = some (h.stop s.clock.now) ∧
      ∀ k : Nat, s.stop.timeline.entries[k]? = s.timeline.entries[k]?.map fun e =>
        if k ∈ h.parts then e.cut s.clock.now else e := by
  cases hp : s.playback with
  | none => exact .inl ⟨by rw [stop, hp], fun h hh => by simp [handle?, hp] at hh⟩
  | some i =>
    rw [stop_of_playback hp]
    cases hi : s.timeline.handles[i]? with
    | none =>
      refine .inl ⟨?_, fun h hh => by simp [handle?, hp, hi] at hh⟩
      rw [Timeline.stop, hi]
    | some h =>
      have hh : s.handle? = some h := by simp [handle?, hp, hi]
      rcases s.timeline.stop_cases hi s.clock.now with ⟨hle, heq⟩ | ⟨hlt, hset, hget⟩
      · refine .inl ⟨by rw [heq], fun h' hh' => ?_⟩
        rw [hh] at hh'
        cases hh'
        exact hle
      · have hlen : i < s.timeline.handles.length := (List.getElem?_eq_some_iff.1 hi).1
        exact .inr ⟨h, hh, hlt, by simp [handle?, hp, hset, hlen], hget⟩

theorem handles_stop (s : Sequencer τ σ) :
    s.stop.timeline.handles.length = s.timeline.handles.length := by
  unfold stop
  split
  · unfold Timeline.stop
    split
    · rfl
    · split
      · rfl
      · exact List.length_set
  · rfl

theorem stop_frame (s : Sequencer τ σ) : s.stop = { s with timeline := s.stop.timeline } := by
  unfold stop
  split <;> rfl

/-- A stop ends the handle on what was submitted last, unless that has ended by itself. -/
theorem handle?_stop (s : Sequencer τ σ) :
    s.stop.handle? = s.handle?.map fun h =>
      if h.finish ≤ s.clock.now then h else h.stop s.clock.now := by
  rcases s.stop_eq_or with ⟨heq, hle⟩ | ⟨h, hh, hlt, hs, -⟩
  · rw [heq]
    cases hh : s.handle? with
    | none => rfl
    | some h => rw [Option.map_some, if_pos (hle h hh)]
  · rw [hs, hh, Option.map_some, if_neg hlt]

/-- It cuts off the entries of this handle, and no other ones. -/
theorem getElem?_stop (s : Sequencer τ σ) (k : Nat) :
    s.stop.timeline.entries[k]? = s.timeline.entries[k]?.map fun e =>
      if ∃ h ∈ s.handle?, ¬h.finish ≤ s.clock.now ∧ k ∈ h.parts then e.cut s.clock.now else e := by
  rcases s.stop_eq_or with ⟨heq, hle⟩ | ⟨h, hh, hlt, -, hget⟩
  · have hnone : ¬∃ h ∈ s.handle?, ¬h.finish ≤ s.clock.now ∧ k ∈ h.parts := by
      rintro ⟨h, hh, hlt, -⟩
      exact hlt (hle h hh)
    simp only [heq, if_neg hnone, Option.map_id']
  · simp [hget, hh, hlt]

/-- Nothing plays after a stop. -/
theorem playing?_stop [Scalar.Ordered τ] (s : Sequencer τ σ) : s.stop.playing? = none := by
  rcases s.stop_eq_or with ⟨heq, hle⟩ | ⟨h, -, -, hs, -⟩
  · rw [heq, playing?_eq_none_iff]
    intro h hh hlt
    exact Scalar.not_le_of_lt hlt (hle h hh)
  · apply playing?_of_ended hs
    rw [clock_stop]
    intro hlt
    exact Scalar.not_le_of_lt hlt (Scalar.le_of_lt hlt)

theorem remaining_of_none {s : Sequencer τ σ} (hp : s.playing? = none) : s.remaining = 0 := by
  rw [remaining, hp]
  rfl

end Sequencer

end

/-! ## The queue in exact time -/

variable {σ : Type}

namespace Sequencer

theorem nextStart_of_handle {s : Sequencer Rat σ} {h : Handle Rat} (hh : s.handle? = some h) :
    s.nextStart = max s.clock.now h.finish := by
  by_cases hlt : s.clock.now < h.finish
  · rw [nextStart, playing?_eq_some_iff.2 ⟨hh, hlt⟩, max_eq_right hlt.le]
    rfl
  · rw [nextStart, playing?_of_ended hh hlt, max_eq_left (not_lt.1 hlt)]
    rfl

theorem nextStart_of_none {s : Sequencer Rat σ} (hh : s.handle? = none) :
    s.nextStart = s.clock.now := by
  rw [nextStart, playing?_of_none hh]
  rfl

theorem now_le_nextStart (s : Sequencer Rat σ) : s.clock.now ≤ s.nextStart := by
  cases hh : s.handle? with
  | none => rw [nextStart_of_none hh]
  | some h =>
    rw [nextStart_of_handle hh]
    exact le_max_left _ _

theorem remaining_of_handle {s : Sequencer Rat σ} {h : Handle Rat} (hh : s.handle? = some h) :
    s.remaining = max (h.finish - s.clock.now) 0 := by
  by_cases hlt : s.clock.now < h.finish
  · rw [remaining, playing?_eq_some_iff.2 ⟨hh, hlt⟩]
    exact Scalar.larger_eq_max _ _
  · rw [remaining, playing?_of_ended hh hlt, max_eq_right (by linarith [not_lt.1 hlt])]
    rfl

theorem ceiling_nonneg {setup : Setup Rat σ} {most : Rat} (h : setup.check = .ok ())
    (hm : setup.maxQueued = .seconds most) : 0 ≤ most := by
  obtain ⟨-, hv, -⟩ := (Setup.check_eq_ok_iff _).1 h
  rw [hm, Ceiling.isValid, Bool.and_eq_true] at hv
  simpa using hv.2

/-- A wait lasts until no more is queued than the ceiling allows. -/
theorem excess_of_some {s : Sequencer Rat σ} {excess : Rat} (hx : s.excess? = some excess)
    (hc : s.setup.check = .ok ()) :
    ∃ most h, s.setup.maxQueued = .seconds most ∧ 0 ≤ most ∧ s.handle? = some h ∧ 0 < excess ∧
      s.clock.now + excess = h.finish - most := by
  unfold excess? at hx
  split at hx
  · cases hx
  · next most hm =>
    have h0 := ceiling_nonneg hc hm
    dsimp only at hx
    split at hx
    · cases hx
    · next hpos =>
      cases hx
      have hpos : 0 < s.remaining - most := not_le.1 hpos
      cases hp : s.playing? with
      | none =>
        rw [remaining_of_none hp] at hpos
        linarith
      | some h =>
        obtain ⟨hh, hlt⟩ := playing?_eq_some_iff.1 hp
        refine ⟨most, h, hm, h0, hh, hpos, ?_⟩
        rw [remaining_of_handle hh, max_eq_left (by linarith)]
        ring

end Sequencer

end MusicMacro
