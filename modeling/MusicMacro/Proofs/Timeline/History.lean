import MusicMacro.Proofs.Order
import MusicMacro.Timeline

/-!
# The history of a timeline

A timeline is moved on by three moves, in any order: a phrase is played at a time, a phrase is
spliced to a handle, and a handle is stopped. What a run has done is told by two lists: the handles
as they were made, and the stops that took effect, which are those that came before the handle had
ended.

The invariant is `Recorded`: entries and handles are as these two lists say.

* `move_cases` — a move changes nothing, or it adds an entry and a handle, or it stops a handle.
* `Recorded.move` — every move keeps the invariant.
* `Recorded.run` — so does every run.
-/

namespace MusicMacro

open Scalar

variable {τ σ : Type}

/-- What can be done with a timeline. -/
inductive Timeline.Move (τ σ : Type)
  | play (p : Phrase τ σ) (start : τ)
  | splice (i : Nat) (p : Phrase τ σ)
  | stop (i : Nat) (time : τ)

/-- A stop of a handle. -/
structure Timeline.Stop (τ : Type) where
  handle : Nat
  time : τ
deriving DecidableEq, Repr

variable [Scalar τ]

namespace Timeline

/-- The timeline after a move. A phrase that cannot be scheduled leaves it as it was. -/
def move (t : Timeline τ σ) : Move τ σ → Timeline τ σ
  | .play p start => (t.play p start).toOption.getD t
  | .splice i p => (t.handles[i]?.bind fun h => (t.splice h p).toOption).getD t
  | .stop i time => t.stop i time

/-- The timeline after a run. -/
def run (t : Timeline τ σ) (moves : List (Move τ σ)) : Timeline τ σ := moves.foldl move t

/-- The stop that a move is, if it takes effect: it comes before the handle has ended. -/
def effective? (t : Timeline τ σ) : Move τ σ → Option (Stop τ)
  | .stop i time =>
    if t.handles[i]?.any fun h => decide (time < h.finish) then some ⟨i, time⟩ else none
  | .play .. | .splice .. => none

/-- The stops that take effect in a run. -/
def stops (t : Timeline τ σ) : List (Move τ σ) → List (Stop τ)
  | [] => []
  | m :: moves => (t.effective? m).toList ++ (t.move m).stops moves

/-- The handles that are made in a run, as they were made. -/
def made (t : Timeline τ σ) : List (Move τ σ) → List (Handle τ)
  | [] => []
  | m :: moves => (t.move m).handles.drop t.handles.length ++ (t.move m).made moves

/-- The time of a stop is a number. -/
def Move.IsTimed : Move τ σ → Prop
  | .stop _ time => isNumber time
  | .play .. | .splice .. => True

instance : DecidablePred (@Move.IsTimed τ σ _)
  | .stop _ time => inferInstanceAs (Decidable (isNumber time = true))
  | .play .. | .splice .. => .isTrue trivial

/-! ## What a move does -/

/-- A handle is cut off with all its entries. -/
def cutOff (t : Timeline τ σ) (i : Nat) (h : Handle τ) (time : τ) : Timeline τ σ where
  entries := t.entries.mapIdx fun k e => if k ∈ h.parts then e.cut time else e
  handles := t.handles.set i (h.stop time)

/-- A move is to schedule a phrase together with what a handle covers, if any, at a time. -/
inductive Schedules (t : Timeline τ σ) : Move τ σ → Phrase τ σ → List Nat → τ → Prop
  | play (p : Phrase τ σ) (start : τ) : Schedules t (.play p start) p [] start
  | splice {i : Nat} {h : Handle τ} (hi : t.handles[i]? = some h) (p : Phrase τ σ) :
    Schedules t (.splice i p) p h.parts h.finish

theorem play_eq (t : Timeline τ σ) (p : Phrase τ σ) (start : τ) :
    t.play p start =
      if isFinite start ∧ isFinite p.duration then
        .ok (t.add ⟨p, start, p.duration, none⟩ [] start)
      else .error ⟨p.duration, start⟩ := by
  simp only [play, entry?, Bool.and_eq_true]
  split <;> rfl

theorem splice_eq (t : Timeline τ σ) (h : Handle τ) (p : Phrase τ σ) :
    t.splice h p =
      if isFinite h.finish ∧ isFinite p.duration then
        .ok (t.add ⟨p, h.finish, p.duration, none⟩ h.parts h.start)
      else .error ⟨p.duration, h.finish⟩ := by
  simp only [splice, entry?, Bool.and_eq_true]
  split <;> rfl

theorem stop_eq {t : Timeline τ σ} {i : Nat} {h : Handle τ} (hi : t.handles[i]? = some h)
    (time : τ) : t.stop i time = if h.finish ≤ time then t else t.cutOff i h time := by
  rw [stop, hi]
  rfl

/-- A move changes nothing, or it adds an entry and a handle, or it stops a handle. -/
theorem move_cases (t : Timeline τ σ) (m : Move τ σ) :
    (t.move m = t ∧ ∀ (i : Nat) (time : τ) (h : Handle τ), m = .stop i time →
      t.handles[i]? = some h → h.finish ≤ time) ∨
    (∃ (p : Phrase τ σ) (start : τ) (parts : List Nat) (first : τ),
      t.Schedules m p parts start ∧ isFinite start ∧ isFinite p.duration ∧
        t.move m = t.add ⟨p, start, p.duration, none⟩ parts first) ∨
    ∃ (i : Nat) (time : τ) (h : Handle τ), m = .stop i time ∧ t.handles[i]? = some h ∧
      ¬h.finish ≤ time ∧ t.move m = t.cutOff i h time := by
  cases m with
  | play p start =>
    rw [move, play_eq]
    by_cases hf : isFinite start ∧ isFinite p.duration
    · rw [if_pos hf]
      exact .inr (.inl ⟨p, start, [], start, .play p start, hf.1, hf.2, rfl⟩)
    · rw [if_neg hf]
      exact .inl ⟨rfl, nofun⟩
  | splice i p =>
    rw [move]
    cases hi : t.handles[i]? with
    | none => exact .inl ⟨rfl, nofun⟩
    | some h =>
      rw [Option.bind_some, splice_eq]
      by_cases hf : isFinite h.finish ∧ isFinite p.duration
      · rw [if_pos hf]
        exact .inr (.inl ⟨p, h.finish, h.parts, h.start, .splice hi p, hf.1, hf.2, rfl⟩)
      · rw [if_neg hf]
        exact .inl ⟨rfl, nofun⟩
  | stop i time =>
    rw [move]
    cases hi : t.handles[i]? with
    | none =>
      refine .inl ⟨by rw [stop, hi], fun j time' h' hm hj => ?_⟩
      cases hm
      rw [hi] at hj
      cases hj
    | some h =>
      rw [stop_eq hi]
      by_cases hf : h.finish ≤ time
      · rw [if_pos hf]
        refine .inl ⟨rfl, fun j time' h' hm hj => ?_⟩
        cases hm
        rw [hi] at hj
        cases hj
        exact hf
      · rw [if_neg hf]
        exact .inr (.inr ⟨i, time, h, rfl, hi, hf, rfl⟩)

/-! ## What the stops tell -/

/-- The times of some of the stops. -/
def timesWhere (q : Stop τ → Bool) (log : List (Stop τ)) : List τ := (log.filter q).map (·.time)

omit [Scalar τ] in
theorem timesWhere_concat (q : Stop τ → Bool) (log : List (Stop τ)) (s : Stop τ) :
    timesWhere q (log ++ [s]) = timesWhere q log ++ if q s then [s.time] else [] := by
  cases hs : q s <;> simp [timesWhere, hs]

omit [Scalar τ] in
theorem timesWhere_eq_nil {q : Stop τ → Bool} {log : List (Stop τ)} (h : ∀ s ∈ log, q s = false) :
    timesWhere q log = [] := by
  rw [timesWhere, List.map_eq_nil_iff, List.filter_eq_nil_iff]
  exact fun s hs => by rw [h s hs]; exact Bool.false_ne_true

omit [Scalar τ] in
theorem mem_timesWhere {q : Stop τ → Bool} {log : List (Stop τ)} {time : τ} :
    time ∈ timesWhere q log ↔ ∃ s ∈ log, q s ∧ s.time = time := by
  simp [timesWhere, and_assoc]

/-- Whether a stop was one of a handle that covers an entry. -/
def covers (t : Timeline τ σ) (k : Nat) (s : Stop τ) : Bool :=
  t.handles[s.handle]?.any fun h => decide (k ∈ h.parts)

/-- The times of the stops of handles that cover an entry. -/
def timesAt (t : Timeline τ σ) (log : List (Stop τ)) (k : Nat) : List τ :=
  timesWhere (t.covers k) log

/-- The times of the stops of a handle. -/
def timesOf (log : List (Stop τ)) (i : Nat) : List τ := timesWhere (·.handle = i) log

end Timeline

/-- An entry that nothing has cut off, or that is cut off at the earliest of some times. -/
structure Entry.ToldBy (e : Entry τ σ) (times : List τ) : Prop where
  start : isFinite e.start
  duration : isFinite e.duration
  stopped : e.stoppedAt = none ∧ times = [] ∨
    ∃ time, e.stoppedAt = some time ∧ Earliest time times

/-- A handle as it was made, but that it was stopped at some times. -/
structure Handle.ToldBy (h h₀ : Handle τ) (times : List τ) : Prop where
  parts : h.parts = h₀.parts
  start : h.start = h₀.start
  finish : Earliest h.finish (h₀.finish :: times)
  stopped : h.stoppedAt = if times = [] then none else some h.finish
  mem : times ≠ [] → h.finish ∈ times

theorem Handle.ToldBy.fresh {h : Handle τ} (hs : h.stoppedAt = none) (hn : isNumber h.finish) :
    h.ToldBy h [] :=
  ⟨rfl, rfl, earliest_singleton hn, hs, absurd rfl⟩

section

variable [Ordered τ] {e : Entry τ σ} {h h₀ : Handle τ} {times : List τ} {time : τ}

theorem Entry.ToldBy.finish (he : e.ToldBy times) :
    Earliest e.finish ((e.start + e.duration) :: times) := by
  have hn := Ordered.isNumber_add he.start he.duration
  rcases he.stopped with ⟨hs, rfl⟩ | ⟨s, hs, hearliest⟩ <;> rw [Entry.finish, hs]
  · exact earliest_singleton hn
  · exact hearliest.cons hn

theorem Entry.ToldBy.cut (he : e.ToldBy times) (ht : isNumber time) :
    (e.cut time).ToldBy (times ++ [time]) := by
  refine ⟨he.start, he.duration, .inr ?_⟩
  rcases he.stopped with ⟨hs, rfl⟩ | ⟨s, hs, hearliest⟩ <;> rw [Entry.cut, hs]
  · exact ⟨time, rfl, earliest_singleton ht⟩
  · exact ⟨smaller s time, rfl, hearliest.concat ht⟩

/-- Cutting an entry off makes it end no later. -/
theorem Entry.ToldBy.finish_cut_le (he : e.ToldBy times) (ht : isNumber time) :
    (e.cut time).finish ≤ e.finish := by
  refine (he.cut ht).finish.2 _ ?_
  rw [← List.cons_append]
  exact List.mem_append_left _ he.finish.1

theorem Handle.ToldBy.stop (hh : h.ToldBy h₀ times) (ht : time < h.finish) :
    (h.stop time).ToldBy h₀ (times ++ [time]) := by
  refine ⟨hh.parts, hh.start, ⟨by simp [Handle.stop], fun b hb => ?_⟩, by simp [Handle.stop],
    fun _ => List.mem_append_right _ List.mem_cons_self⟩
  have hle := le_of_lt ht
  rcases List.mem_append.1 ((List.cons_append ..) ▸ hb) with hb | hb
  · exact Ordered.trans hle (hh.finish.2 b hb)
  · rw [List.mem_singleton.1 hb]
    exact le_self (Ordered.isNumber_of_le hle).1

end

/-! ## The invariant -/

namespace Timeline

/-- A timeline is as the stops that took effect and the handles as they were made say. -/
structure Recorded (t : Timeline τ σ) (log : List (Stop τ)) (made : List (Handle τ)) : Prop where
  length : made.length = t.handles.length
  parts_lt : ∀ (i : Nat) (h : Handle τ), t.handles[i]? = some h →
    ∀ k ∈ h.parts, k < t.entries.length
  handle_lt : ∀ s ∈ log, s.handle < t.handles.length
  entry : ∀ (k : Nat) (e : Entry τ σ), t.entries[k]? = some e → e.ToldBy (t.timesAt log k)
  handle : ∀ (i : Nat) (h : Handle τ), t.handles[i]? = some h →
    ∃ h₀, made[i]? = some h₀ ∧ h.ToldBy h₀ (timesOf log i)

theorem recorded_empty : Recorded (empty : Timeline τ σ) [] [] where
  length := rfl
  parts_lt _ _ hi := nomatch hi
  handle_lt _ hs := nomatch hs
  entry _ _ hk := nomatch hk
  handle _ _ hi := nomatch hi

/-! ### Cutting off -/

section

variable {t : Timeline τ σ} {i j : Nat} {h g : Handle τ} {time : τ}

theorem entries_cutOff (k : Nat) : (t.cutOff i h time).entries[k]? =
    t.entries[k]?.map fun e => if k ∈ h.parts then e.cut time else e :=
  List.getElem?_mapIdx

theorem drop_handles_cutOff :
    (t.cutOff i h time).handles.drop t.handles.length = [] := by
  rw [List.drop_eq_nil_iff]
  exact List.length_set.le

/-- A handle at an index is the one that is stopped, or it is as it was. -/
theorem handles_cutOff_cases (hi : t.handles[i]? = some h)
    (hj : (t.cutOff i h time).handles[j]? = some g) :
    j = i ∧ g = h.stop time ∨ j ≠ i ∧ t.handles[j]? = some g := by
  rw [cutOff, List.getElem?_set] at hj
  split at hj
  next heq =>
    rw [if_pos (List.getElem?_eq_some_iff.1 hi).1] at hj
    exact .inl ⟨heq.symm, (Option.some.inj hj).symm⟩
  next hne => exact .inr ⟨Ne.symm hne, hj⟩

/-- Handles cover what they covered. -/
theorem parts_cutOff (hi : t.handles[i]? = some h)
    (hj : (t.cutOff i h time).handles[j]? = some g) :
    ∃ g', t.handles[j]? = some g' ∧ g.parts = g'.parts := by
  rcases handles_cutOff_cases hi hj with ⟨rfl, rfl⟩ | ⟨-, hj⟩
  · exact ⟨h, hi, rfl⟩
  · exact ⟨g, hj, rfl⟩

theorem covers_cutOff (hi : t.handles[i]? = some h) (k : Nat) :
    (t.cutOff i h time).covers k = t.covers k := by
  funext s
  rw [covers, covers, cutOff, List.getElem?_set]
  split
  next heq =>
    rw [if_pos (List.getElem?_eq_some_iff.1 hi).1, ← heq, hi]
    rfl
  next => rfl

end

/-! ### Moves -/

/-- The element at an index of a list with one more at its end. -/
theorem getElem?_concat_cases {α : Type} {xs : List α} {x y : α} {k : Nat}
    (h : (xs ++ [x])[k]? = some y) :
    k < xs.length ∧ xs[k]? = some y ∨ k = xs.length ∧ y = x := by
  rw [List.getElem?_append] at h
  split at h
  next hk => exact .inl ⟨hk, h⟩
  next hk =>
    obtain ⟨hlt, heq⟩ := List.getElem?_eq_some_iff.1 h
    rw [List.length_singleton] at hlt
    exact .inr ⟨by omega, by rw [← heq, List.getElem_singleton]⟩

section

variable [Ordered τ] {t : Timeline τ σ} {log : List (Stop τ)} {made : List (Handle τ)}

/-- A move that is no stop of a handle before its end is no stop that takes effect. -/
theorem effective?_eq_none {m : Move τ σ} (hm : ∀ (i : Nat) (time : τ) (h : Handle τ),
    m = .stop i time → t.handles[i]? = some h → h.finish ≤ time) : t.effective? m = none := by
  cases m with
  | play p start => rfl
  | splice i p => rfl
  | stop i time =>
    refine if_neg fun hany => ?_
    obtain ⟨h, hi, hlt⟩ := (Option.any_eq_true _ _).1 hany
    exact not_le_of_lt (of_decide_eq_true hlt) (hm i time h rfl hi)

/-- An added entry is cut off by no stop so far, and the others are as they were. -/
theorem Recorded.add (ht : Recorded t log made) {m : Move τ σ} {p : Phrase τ σ}
    {parts : List Nat} {start : τ} (hm : t.Schedules m p parts start) (first : τ)
    (hs : isFinite start) (hd : isFinite p.duration) :
    let t' := t.add ⟨p, start, p.duration, none⟩ parts first
    Recorded t' log (made ++ t'.handles.drop t.handles.length) := by
  intro t'
  let h' : Handle τ := ⟨parts ++ [t.entries.length], first, start + p.duration, none⟩
  have hhandles : t'.handles = t.handles ++ [h'] := rfl
  have hentries : t'.entries = t.entries ++ [⟨p, start, p.duration, none⟩] := rfl
  have hmade : t'.handles.drop t.handles.length = [h'] := by rw [hhandles, List.drop_left]
  have hcovers : ∀ k, ∀ s ∈ log, t'.covers k s = t.covers k s := fun k s hs => by
    rw [covers, hhandles, List.getElem?_append_left (ht.handle_lt s hs)]
    rfl
  have htimes (k : Nat) : t'.timesAt log k = t.timesAt log k := by
    rw [timesAt, timesAt, timesWhere, timesWhere, List.filter_congr (hcovers k)]
  refine ⟨?_, fun i h hi k hk => ?_, fun s hs => ?_, fun k e hk => ?_, fun i h hi => ?_⟩
  · rw [hmade, hhandles, List.length_append, List.length_append, ht.length]
  · rw [hentries, List.length_append]
    rcases getElem?_concat_cases hi with ⟨-, hi⟩ | ⟨-, rfl⟩
    · exact Nat.lt_add_right 1 (ht.parts_lt i h hi k hk)
    · rcases List.mem_append.1 hk with hpart | hpart
      · cases hm with
        | play p start => cases hpart
        | splice hj p => exact Nat.lt_add_right 1 (ht.parts_lt _ _ hj k hpart)
      · rw [List.mem_singleton.1 hpart]
        exact Nat.lt_succ_self _
  · rw [hhandles, List.length_append]
    exact Nat.lt_add_right 1 (ht.handle_lt s hs)
  · rw [htimes]
    rcases getElem?_concat_cases hk with ⟨-, hk⟩ | ⟨rfl, rfl⟩
    · exact ht.entry k e hk
    · -- no handle so far covers the new entry
      refine ⟨hs, hd, .inl ⟨rfl, timesWhere_eq_nil fun s _ => ?_⟩⟩
      rw [covers, Option.any_eq_false]
      exact fun h hi => by simpa using fun hk => Nat.lt_irrefl _ (ht.parts_lt _ h hi _ hk)
  · rcases getElem?_concat_cases hi with ⟨-, hi⟩ | ⟨rfl, rfl⟩
    · obtain ⟨h₀, hi₀, hh⟩ := ht.handle i h hi
      exact ⟨h₀, by rw [List.getElem?_append_left (List.getElem?_eq_some_iff.1 hi₀).1, hi₀], hh⟩
    · -- no stop so far was one of the new handle
      have hnil : timesOf log t.handles.length = [] :=
        timesWhere_eq_nil fun s hs => decide_eq_false (ht.handle_lt s hs).ne
      rw [hnil, hmade, ← ht.length, List.getElem?_concat_length]
      exact ⟨h', rfl, .fresh rfl (Ordered.isNumber_add hs hd)⟩

/-- A stop that takes effect is one more stop of the handle, and of the entries it covers. -/
theorem Recorded.cutOff (ht : Recorded t log made) {i : Nat} {h : Handle τ} {time : τ}
    (hi : t.handles[i]? = some h) (hlt : time < h.finish) :
    Recorded (t.cutOff i h time) (log ++ [⟨i, time⟩]) made := by
  have hn := (Ordered.isNumber_of_le (le_of_lt hlt)).1
  have hlen : (t.cutOff i h time).handles.length = t.handles.length := List.length_set
  refine ⟨by rw [ht.length, hlen], fun j g hj k hk => ?_, fun s hs => ?_, fun k e hk => ?_,
    fun j g hj => ?_⟩
  · obtain ⟨g', hj', hparts⟩ := parts_cutOff hi hj
    rw [Timeline.cutOff, List.length_mapIdx]
    exact ht.parts_lt j g' hj' k (hparts ▸ hk)
  · rw [hlen]
    rcases List.mem_append.1 hs with hs | hs
    · exact ht.handle_lt s hs
    · rw [List.mem_singleton.1 hs]
      exact (List.getElem?_eq_some_iff.1 hi).1
  · rw [entries_cutOff, Option.map_eq_some_iff] at hk
    obtain ⟨e, hk, rfl⟩ := hk
    have he := ht.entry k e hk
    rw [timesAt, timesWhere_concat, covers_cutOff hi, ← timesAt, covers, hi, Option.any_some]
    by_cases hmem : k ∈ h.parts
    · rw [if_pos hmem, if_pos (decide_eq_true hmem)]
      exact he.cut hn
    · rw [if_neg hmem, if_neg (by simpa using hmem), List.append_nil]
      exact he
  · rw [timesOf, timesWhere_concat, ← timesOf]
    rcases handles_cutOff_cases hi hj with ⟨rfl, rfl⟩ | ⟨hne, hj⟩
    · obtain ⟨h₀, hi₀, hh⟩ := ht.handle j h hi
      rw [if_pos (decide_eq_true rfl)]
      exact ⟨h₀, hi₀, hh.stop hlt⟩
    · rw [if_neg (by simpa using hne.symm), List.append_nil]
      exact ht.handle j g hj

/-- Every move keeps the invariant. -/
theorem Recorded.move (ht : Recorded t log made) {m : Move τ σ} (hm : m.IsTimed) :
    Recorded (t.move m) (log ++ (t.effective? m).toList)
      (made ++ (t.move m).handles.drop t.handles.length) := by
  rcases t.move_cases m with ⟨hsame, hnone⟩ | ⟨p, start, parts, first, hp, hs, hd, hadd⟩ |
    ⟨i, time, h, rfl, hi, hle, hcut⟩
  · rw [hsame, List.drop_length, List.append_nil, effective?_eq_none hnone]
    simpa using ht
  · have heff : t.effective? m = none := by cases hp <;> rfl
    rw [hadd, heff]
    simpa using ht.add hp first hs hd
  · have hlt : time < h.finish := by
      obtain ⟨h₀, -, hh⟩ := ht.handle i h hi
      exact lt_of_not_le hm hh.finish.isNumber hle
    have heff : t.effective? (.stop i time : Move τ σ) = some ⟨i, time⟩ := by
      rw [effective?, hi, Option.any_some, if_pos (decide_eq_true hlt)]
    rw [hcut, drop_handles_cutOff, List.append_nil, heff]
    exact ht.cutOff hi hlt

/-- Every run keeps the invariant. -/
theorem Recorded.run (ht : Recorded t log made) {moves : List (Move τ σ)}
    (hm : ∀ m ∈ moves, m.IsTimed) :
    Recorded (t.run moves) (log ++ t.stops moves) (made ++ t.made moves) := by
  induction moves generalizing t log made with
  | nil =>
    rw [stops, Timeline.made, List.append_nil, List.append_nil]
    exact ht
  | cons m moves ih =>
    rw [stops, Timeline.made, ← List.append_assoc, ← List.append_assoc]
    exact ih (ht.move (hm m List.mem_cons_self)) fun m' hm' => hm m' (List.mem_cons_of_mem m hm')

end

end Timeline

end MusicMacro
