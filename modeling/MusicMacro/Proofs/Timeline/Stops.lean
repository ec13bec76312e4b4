import MusicMacro.Proofs.Order.Binary64
import MusicMacro.Proofs.Timeline.History

/-!
# What stops do

Whatever the order of the moves, a run leaves each entry in its place with the start it was given.
Where entries and handles end is told by the stops that took effect: an entry ends at the first of
those of handles that cover it, if it has not ended by itself, and a handle at the first of its
own.

* `keepsEntries_run` — entries are neither removed nor moved.
* `Recorded.keepsHandles` — handles are kept, and no handle ends later than it did.
* `Handle.ToldBy.outcome` — playing is cancelled exactly if a stop of the handle took effect.
* `finish_of_stops` — all this, for every run from the empty timeline.
-/

namespace MusicMacro

open Scalar

variable {τ σ : Type} [Scalar τ]

namespace Timeline

/-! ## What is kept -/

/-- Entries are where they were, as they were but for their cut-off. -/
def KeepsEntries (t t' : Timeline τ σ) : Prop :=
  ∀ (k : Nat) (e : Entry τ σ), t.entries[k]? = some e →
    ∃ stoppedAt, t'.entries[k]? = some { e with stoppedAt }

/-- Handles are where they were, with what they cover and where that starts, and none ends later. -/
def KeepsHandles (t t' : Timeline τ σ) : Prop :=
  ∀ (i : Nat) (h : Handle τ), t.handles[i]? = some h →
    ∃ h', t'.handles[i]? = some h' ∧ h'.parts = h.parts ∧ h'.start = h.start ∧ h'.finish ≤ h.finish

omit [Scalar τ] in
theorem KeepsEntries.trans {t t' t'' : Timeline τ σ} (h : t.KeepsEntries t')
    (h' : t'.KeepsEntries t'') : t.KeepsEntries t'' := by
  intro k e hk
  obtain ⟨_, hk'⟩ := h k e hk
  obtain ⟨c, hk''⟩ := h' k _ hk'
  exact ⟨c, hk''⟩

/-- A move keeps the entries. -/
theorem keepsEntries_move (t : Timeline τ σ) (m : Move τ σ) : t.KeepsEntries (t.move m) := by
  intro k e hk
  rcases t.move_cases m with ⟨hsame, -⟩ | ⟨p, start, parts, first, -, -, -, hadd⟩ |
    ⟨i, time, h, -, -, -, hcut⟩
  · exact ⟨e.stoppedAt, by rw [hsame, hk]⟩
  · have hlt := (List.getElem?_eq_some_iff.1 hk).1
    exact ⟨e.stoppedAt, by rw [hadd, add, List.getElem?_append_left hlt, hk]⟩
  · rw [hcut, entries_cutOff, hk, Option.map_some]
    by_cases hmem : k ∈ h.parts
    · rw [if_pos hmem]
      exact ⟨_, rfl⟩
    · rw [if_neg hmem]
      exact ⟨_, rfl⟩

/-- A run keeps the entries. -/
theorem keepsEntries_run (t : Timeline τ σ) (moves : List (Move τ σ)) :
    t.KeepsEntries (t.run moves) := by
  induction moves generalizing t with
  | nil => exact fun k e hk => ⟨e.stoppedAt, hk⟩
  | cons m moves ih => exact (t.keepsEntries_move m).trans (ih (t.move m))

/-! ## Where handles end -/

end Timeline

/-- From the end of a handle on playing has ended, by itself unless the handle was stopped. -/
theorem Handle.ToldBy.outcome {h h₀ : Handle τ} {times : List τ} (hh : h.ToldBy h₀ times)
    (now : τ) : h.outcome now =
      if h.finish ≤ now then some (if times = [] then .completed else .cancelled) else none := by
  rw [Handle.outcome, hh.stopped]
  by_cases hnil : times = []
  · rw [if_pos hnil, if_pos hnil]
    rfl
  · rw [if_neg hnil, if_neg hnil, Option.any_some]
    by_cases hf : h.finish ≤ now
    · rw [if_pos (decide_eq_true hf), if_pos hf]
    · rw [if_neg hf, if_neg (by simpa using hf), if_neg hf]

namespace Timeline

/-- Handles are kept when more has been done, and more stops can only make them end earlier. -/
theorem Recorded.keepsHandles [Ordered τ] {t t' : Timeline τ σ} {log more : List (Stop τ)}
    {made later : List (Handle τ)} (ht : Recorded t log made)
    (ht' : Recorded t' (log ++ more) (made ++ later)) : t.KeepsHandles t' := by
  intro i h hi
  obtain ⟨h₀, hi₀, hh⟩ := ht.handle i h hi
  have hlt : i < t'.handles.length := by
    have hlt := (List.getElem?_eq_some_iff.1 hi₀).1
    have hlen := ht'.length
    rw [List.length_append] at hlen
    omega
  obtain ⟨h₀', hi₀', hh'⟩ := ht'.handle i _ (List.getElem?_eq_getElem hlt)
  have hsame : h₀' = h₀ := by
    rw [List.getElem?_append_left (List.getElem?_eq_some_iff.1 hi₀).1, hi₀] at hi₀'
    exact (Option.some.inj hi₀').symm
  subst hsame
  refine ⟨_, List.getElem?_eq_getElem hlt, by rw [hh'.parts, hh.parts],
    by rw [hh'.start, hh.start], hh'.finish.2 _ ?_⟩
  rw [timesOf, timesWhere, List.filter_append, List.map_append, ← List.cons_append]
  exact List.mem_append_left _ hh.finish.1

/-! ## Phrases that cannot be scheduled -/

omit [Scalar τ] in
theorem ne_of_entries {t t' : Timeline τ σ} {e : Entry τ σ} (h : t'.entries = t.entries ++ [e]) :
    t' ≠ t := by
  rintro rfl
  exact List.cons_ne_nil e [] (List.self_eq_append_right.1 h)

/-- Playing a phrase changes nothing if it fails, and only then. -/
theorem move_play_eq_self_iff (t : Timeline τ σ) (p : Phrase τ σ) (start : τ) :
    t.move (.play p start) = t ↔ ∃ err, t.play p start = .error err := by
  rw [move]
  cases h : t.play p start with
  | error err => exact iff_of_true rfl ⟨err, rfl⟩
  | ok t' =>
    refine iff_of_false (ne_of_entries (entries_of_play h)) ?_
    rintro ⟨err, herr⟩
    cases herr

/-- Splicing a phrase to a handle changes nothing if it fails, and only then. -/
theorem move_splice_eq_self_iff {t : Timeline τ σ} {i : Nat} {h : Handle τ}
    (hi : t.handles[i]? = some h) (p : Phrase τ σ) :
    t.move (.splice i p) = t ↔ ∃ err, t.splice h p = .error err := by
  rw [move, hi, Option.bind_some]
  cases hs : t.splice h p with
  | error err => exact iff_of_true rfl ⟨err, rfl⟩
  | ok t' =>
    refine iff_of_false (ne_of_entries (entries_of_splice hs)) ?_
    rintro ⟨err, herr⟩
    cases herr

/-! ## Every run -/

variable [Ordered τ]

/-- Whatever else is done after a run, its entries stay where they are and its handles end no later
than they did. The stops that took effect in the run tell where everything ends: an entry at the
first stop of a handle that covers it, unless it has ended by itself, and a handle at the first stop
of its own, unless it ended before as it was made. A handle that was not stopped was played to its
end. Phrases that cannot be scheduled change nothing. -/
theorem finish_of_stops {moves more : List (Move τ σ)} (hm : ∀ m ∈ moves ++ more, m.IsTimed) :
    let t := (empty : Timeline τ σ).run moves
    let log := (empty : Timeline τ σ).stops moves
    t.KeepsEntries (t.run more) ∧ t.KeepsHandles (t.run more) ∧
      (∀ (k : Nat) (e : Entry τ σ), t.entries[k]? = some e →
        Earliest e.finish ((e.start + e.duration) :: t.timesAt log k)) ∧
      (∀ (i : Nat) (h : Handle τ), t.handles[i]? = some h →
        (∃ h₀, ((empty : Timeline τ σ).made moves)[i]? = some h₀ ∧
          Earliest h.finish (h₀.finish :: timesOf log i)) ∧
        ∀ now, h.outcome now =
          if h.finish ≤ now then some (if timesOf log i = [] then .completed else .cancelled)
          else none) ∧
      (∀ (p : Phrase τ σ) (start : τ),
        t.move (.play p start) = t ↔ ∃ err, t.play p start = .error err) ∧
      ∀ (i : Nat) (h : Handle τ), t.handles[i]? = some h → ∀ p : Phrase τ σ,
        (t.move (.splice i p) = t ↔ ∃ err, t.splice h p = .error err) := by
  intro t log
  have ht : Recorded t log ((empty : Timeline τ σ).made moves) :=
    recorded_empty.run fun m h => hm m (List.mem_append_left _ h)
  have hmore := ht.run fun m h => hm m (List.mem_append_right _ h)
  refine ⟨t.keepsEntries_run more, ht.keepsHandles hmore, fun k e hk => (ht.entry k e hk).finish,
    fun i h hi => ?_, t.move_play_eq_self_iff, fun i h hi => move_splice_eq_self_iff hi⟩
  obtain ⟨h₀, hi₀, hh⟩ := ht.handle i h hi
  exact ⟨⟨h₀, hi₀, hh.finish⟩, hh.outcome⟩

section

/-- Two rests as one, the later of which is cut short before the earlier, and a third one. -/
def shortened : List (Move Float Float) :=
  [.play (.silence 2) 0, .splice 0 (.silence 1), .stop 1 2.5, .stop 0 1, .stop 1 3,
    .splice 1 (.silence 0.25)]

theorem finish_of_stops_shortened :
    let t := (empty : Timeline Float Float).run shortened
    let log := (empty : Timeline Float Float).stops shortened
    t.spans = [(0, 1), (2, 2.5), (2.5, 2.75)] ∧ log = [⟨1, 2.5⟩, ⟨0, 1⟩] ∧
      (∀ e, t.entries[0]? = some e → Earliest e.finish [e.start + e.duration, 2.5, 1]) ∧
      (∀ h, t.handles[0]? = some h → h.outcome 1 = some .cancelled) ∧
      t.KeepsEntries (t.move (.stop 2 2)) := by
  intro t log
  have htimes : t.timesAt log 0 = [2.5, 1] ∧ timesOf log 0 = [1] := by decide +kernel
  have hfinish : ∃ h, t.handles[0]? = some h ∧ h.finish ≤ 1 := by decide +kernel
  obtain ⟨hkeeps, -, hentry, hhandle, -⟩ :=
    @finish_of_stops _ _ _ _ shortened [.stop 2 2] (by decide +kernel)
  refine ⟨by decide +kernel, by decide +kernel, fun e he => ?_, fun h hi => ?_, hkeeps⟩
  · rw [← htimes.1]
    exact hentry 0 e he
  · obtain ⟨_, hi', hle⟩ := hfinish
    rw [hi] at hi'
    cases hi'
    rw [(hhandle 0 h hi).2, if_pos hle, htimes.2]
    rfl

end

end Timeline

end MusicMacro
