import MusicMacro.Proofs.Order.Rounding
import MusicMacro.Proofs.Timeline.Stops

/-!
# What handles report

A handle keeps an end of its own, and others may cover its entries as well: all those made by
splicing to it, and by splicing to these. What it covers ends with its own entry, the one it was
made for. A stop of another handle cuts this entry off and leaves the handle as it was, which then
reports an end that is too late, and that all was played.

The invariant is `Nested`: a handle covers its own entry and all that is covered by handles of
entries it covers, and nothing it covers goes on after the natural end of its own entry.

* `Nested.finish_le_own` — of what a handle covers its own entry ends last.
* `Nested.finish_le_handle` — a handle reports no end that is too early.
* `Nested.lastsUntil_iff`, `Nested.cutShort_iff` — where what is covered ends, by the stops.
* `report_of_stops` — a report is right unless another handle was stopped before it.
* `stop_unreported` — a report that is not right.
-/

namespace MusicMacro

open Scalar

variable {τ σ : Type} [Scalar τ]

namespace Timeline

/-- The phrase of a move takes no negative time. -/
def Move.IsForward : Move τ σ → Prop
  | .play p _ | .splice _ p => 0 ≤ p.duration
  | .stop .. => True

instance : DecidablePred (@Move.IsForward τ σ _)
  | .play p _ | .splice _ p => inferInstanceAs (Decidable (0 ≤ p.duration))
  | .stop .. => .isTrue trivial

/-- A handle was stopped that covers all that another one covers. -/
def Overrides (t : Timeline τ σ) (s : Stop τ) (h : Handle τ) : Prop :=
  ∃ g, t.handles[s.handle]? = some g ∧ h.parts ⊆ g.parts

/-- The entries that a handle covers have ended by a time, and one of them no earlier. -/
def LastsUntil (t : Timeline τ σ) (h : Handle τ) (time : τ) : Prop :=
  (∀ k ∈ h.parts, ∀ e, t.entries[k]? = some e → e.finish ≤ time) ∧
    ∃ k ∈ h.parts, ∃ e, t.entries[k]? = some e ∧ time ≤ e.finish

instance (t : Timeline τ σ) (h : Handle τ) (time : τ) : Decidable (t.LastsUntil h time) :=
  inferInstanceAs (Decidable (_ ∧ _))

/-- Handles and entries as they are nested. -/
structure Nested (t : Timeline τ σ) (made : List (Handle τ)) : Prop where
  length : t.handles.length = t.entries.length
  /-- A handle covers its own entry. -/
  own : ∀ (i : Nat) (h : Handle τ), t.handles[i]? = some h → i ∈ h.parts
  within : ∀ (i k : Nat) (h g : Handle τ), t.handles[i]? = some h → t.handles[k]? = some g →
    k ∈ h.parts → g.parts ⊆ h.parts
  natural : ∀ (i : Nat) (h₀ : Handle τ) (e : Entry τ σ), made[i]? = some h₀ →
    t.entries[i]? = some e → h₀.finish = e.start + e.duration
  reach : ∀ (i : Nat) (h h₀ : Handle τ), t.handles[i]? = some h → made[i]? = some h₀ →
    ∀ k ∈ h.parts, ∀ e, t.entries[k]? = some e → e.finish ≤ h₀.finish

theorem nested_empty : Nested (empty : Timeline τ σ) [] where
  length := rfl
  own _ _ hi := nomatch hi
  within _ _ _ _ hi := nomatch hi
  natural _ _ _ hi := nomatch hi
  reach _ _ _ hi := nomatch hi

section

variable {t : Timeline τ σ} {log : List (Stop τ)} {made : List (Handle τ)}

/-! ## Where what is covered ends -/

/-- A handle that covers the own entry of another one covers all that this one covers. -/
theorem Nested.covers_iff (hn : Nested t made) {i : Nat} {h : Handle τ}
    (hi : t.handles[i]? = some h) (s : Stop τ) : t.covers i s ↔ t.Overrides s h := by
  rw [covers, Option.any_eq_true]
  constructor
  · rintro ⟨g, hg, hmem⟩
    exact ⟨g, hg, hn.within _ i g h hg hi (of_decide_eq_true hmem)⟩
  · rintro ⟨g, hg, hsub⟩
    exact ⟨g, hg, decide_eq_true (hsub (hn.own i h hi))⟩

variable [Ordered τ]

/-- What overrides a handle cuts off all that it covers. -/
theorem Recorded.finish_le_stop (ht : Recorded t log made) {s : Stop τ} (hs : s ∈ log)
    {h : Handle τ} (ho : t.Overrides s h) {k : Nat} {e : Entry τ σ} (hk : k ∈ h.parts)
    (he : t.entries[k]? = some e) : e.finish ≤ s.time := by
  obtain ⟨g, hg, hsub⟩ := ho
  refine (ht.entry k e he).finish.2 _ (List.mem_cons_of_mem _ (mem_timesWhere.2 ⟨s, hs, ?_, rfl⟩))
  rw [covers, hg]
  exact decide_eq_true (hsub hk)

/-- The own entry of a handle ends where the handle ended at first, or where it was overridden. -/
theorem Nested.finish_own (hn : Nested t made) (ht : Recorded t log made) {i : Nat}
    {h h₀ : Handle τ} {own : Entry τ σ} (hi : t.handles[i]? = some h)
    (hi₀ : made[i]? = some h₀) (hown : t.entries[i]? = some own) :
    own.finish = h₀.finish ∨ ∃ s ∈ log, t.Overrides s h ∧ own.finish = s.time := by
  rcases List.mem_cons.1 (ht.entry i own hown).finish.1 with hnat | hstop
  · exact .inl (by rw [hnat, hn.natural i h₀ own hi₀ hown])
  · obtain ⟨s, hs, hcov, htime⟩ := mem_timesWhere.1 hstop
    exact .inr ⟨s, hs, (hn.covers_iff hi s).1 hcov, htime.symm⟩

omit [Ordered τ] in
theorem Nested.exists_own (hn : Nested t made) {i : Nat} {h : Handle τ}
    (hi : t.handles[i]? = some h) : ∃ own, t.entries[i]? = some own :=
  ⟨_, List.getElem?_eq_getElem (hn.length ▸ (List.getElem?_eq_some_iff.1 hi).1)⟩

/-- Of what a handle covers its own entry ends last. -/
theorem Nested.finish_le_own (hn : Nested t made) (ht : Recorded t log made) {i k : Nat}
    {h : Handle τ} {own e : Entry τ σ} (hi : t.handles[i]? = some h)
    (hown : t.entries[i]? = some own) (hk : k ∈ h.parts) (he : t.entries[k]? = some e) :
    e.finish ≤ own.finish := by
  obtain ⟨h₀, hi₀, hh⟩ := ht.handle i h hi
  rcases hn.finish_own ht hi hi₀ hown with heq | ⟨s, hs, ho, heq⟩ <;> rw [heq]
  · exact hn.reach i h h₀ hi hi₀ k hk e he
  · exact ht.finish_le_stop hs ho hk he

/-- A handle reports no end that is too early. -/
theorem Nested.finish_le_handle (hn : Nested t made) (ht : Recorded t log made) {i k : Nat}
    {h : Handle τ} {e : Entry τ σ} (hi : t.handles[i]? = some h) (hk : k ∈ h.parts)
    (he : t.entries[k]? = some e) : e.finish ≤ h.finish := by
  obtain ⟨h₀, hi₀, hh⟩ := ht.handle i h hi
  rcases List.mem_cons.1 hh.finish.1 with heq | hstop
  · rw [heq]
    exact hn.reach i h h₀ hi hi₀ k hk e he
  · obtain ⟨s, hs, hhandle, heq⟩ := mem_timesWhere.1 hstop
    rw [← heq]
    refine ht.finish_le_stop hs ⟨h, ?_, fun _ => id⟩ hk he
    rw [of_decide_eq_true hhandle, hi]

/-! ## Moves -/

variable [Cumulative τ]

/-- What is scheduled after a handle is nested with all that the handle covers. -/
theorem Nested.add (hn : Nested t made) (ht : Recorded t log made) {m : Move τ σ}
    {p : Phrase τ σ} {parts : List Nat} {start : τ} (hm : t.Schedules m p parts start) (first : τ)
    (hs : isFinite start) (hd : isFinite p.duration) (hf : m.IsForward) :
    let t' := t.add ⟨p, start, p.duration, none⟩ parts first
    Nested t' (made ++ t'.handles.drop t.handles.length) := by
  intro t'
  let h' : Handle τ := ⟨parts ++ [t.entries.length], first, start + p.duration, none⟩
  have hhandles : t'.handles = t.handles ++ [h'] := rfl
  have hentries : t'.entries = t.entries ++ [⟨p, start, p.duration, none⟩] := rfl
  have hmade : t'.handles.drop t.handles.length = [h'] := by rw [hhandles, List.drop_left]
  have hparts : ∀ k ∈ parts, k < t.entries.length ∧
      (∀ g, t.handles[k]? = some g → g.parts ⊆ parts) ∧
      ∀ e, t.entries[k]? = some e → e.finish ≤ start := by
    intro k hk
    cases hm with
    | play p start => cases hk
    | splice hj p =>
      exact ⟨ht.parts_lt _ _ hj k hk, fun g' hg' => hn.within _ k _ g' hj hg' hk,
        fun e he => hn.finish_le_handle ht hj hk he⟩
  have hnonneg : 0 ≤ p.duration := by cases hm <;> exact hf
  have hlength := hn.length
  have hlength' := ht.length
  rw [hmade]
  refine ⟨?_, fun i h hi => ?_, fun i k h g hi hg hk => ?_, fun i h₀ e hi₀ he => ?_,
    fun i h h₀ hi hi₀ k hk e he => ?_⟩
  · rw [hhandles, hentries, List.length_append, List.length_append, hlength]
    rfl
  · rcases getElem?_concat_cases hi with ⟨-, hi⟩ | ⟨rfl, rfl⟩
    · exact hn.own i h hi
    · rw [hlength]
      exact List.mem_append_right _ List.mem_cons_self
  · rcases getElem?_concat_cases hi with ⟨-, hi⟩ | ⟨rfl, rfl⟩ <;>
      rcases getElem?_concat_cases hg with ⟨hlt, hg⟩ | ⟨rfl, rfl⟩
    · exact hn.within i k h g hi hg hk
    · have hlt := ht.parts_lt i h hi _ hk
      omega
    · rcases List.mem_append.1 hk with hk | hk
      · exact List.subset_append_of_subset_left _ ((hparts k hk).2.1 g hg)
      · rw [List.mem_singleton.1 hk] at hlt
        omega
    · exact fun _ => id
  · rcases getElem?_concat_cases hi₀ with ⟨hlt₀, hi₀⟩ | ⟨rfl, rfl⟩ <;>
      rcases getElem?_concat_cases he with ⟨hlt, he⟩ | ⟨hi, rfl⟩
    · exact hn.natural i h₀ e hi₀ he
    · omega
    · omega
    · rfl
  · rcases getElem?_concat_cases hi with ⟨hlt, hi⟩ | ⟨rfl, rfl⟩ <;>
      rcases getElem?_concat_cases hi₀ with ⟨hlt₀, hi₀⟩ | ⟨hi', rfl⟩
    · rcases getElem?_concat_cases he with ⟨-, he⟩ | ⟨rfl, rfl⟩
      · exact hn.reach i h h₀ hi hi₀ k hk e he
      · exact absurd (ht.parts_lt i h hi _ hk) (Nat.lt_irrefl _)
    · omega
    · omega
    · rcases getElem?_concat_cases he with ⟨hlt, he⟩ | ⟨rfl, rfl⟩
      · rcases List.mem_append.1 hk with hk | hk
        · exact Ordered.trans ((hparts k hk).2.2 e he) (Cumulative.le_add hs hd hnonneg)
        · rw [List.mem_singleton.1 hk] at hlt
          exact absurd hlt (Nat.lt_irrefl _)
      · exact le_self (Ordered.isNumber_add hs hd)

omit [Cumulative τ] in
/-- Cutting off makes entries end earlier and leaves them where they are nested. -/
theorem Nested.cutOff (hn : Nested t made) (ht : Recorded t log made) {i : Nat} {h : Handle τ}
    {time : τ} (hi : t.handles[i]? = some h) (htime : isNumber time) :
    Nested (t.cutOff i h time) made := by
  have hentry (k : Nat) (e' : Entry τ σ) (hk : (t.cutOff i h time).entries[k]? = some e') :
      ∃ e, t.entries[k]? = some e ∧ e'.start = e.start ∧ e'.duration = e.duration ∧
        e'.finish ≤ e.finish := by
    rw [entries_cutOff, Option.map_eq_some_iff] at hk
    obtain ⟨e, hk, rfl⟩ := hk
    have he := ht.entry k e hk
    refine ⟨e, hk, ?_⟩
    split
    · exact ⟨rfl, rfl, he.finish_cut_le htime⟩
    · exact ⟨rfl, rfl, le_self he.finish.isNumber⟩
  refine ⟨?_, fun j g hj => ?_, fun j k g g' hj hk hmem => ?_, fun j h₀ e hj he => ?_,
    fun j g h₀ hj hj₀ k hk e he => ?_⟩
  · rw [Timeline.cutOff, List.length_set, List.length_mapIdx, hn.length]
  · obtain ⟨g', hj', hp⟩ := parts_cutOff hi hj
    rw [hp]
    exact hn.own j g' hj'
  · obtain ⟨f, hj', hp⟩ := parts_cutOff hi hj
    obtain ⟨f', hk', hp'⟩ := parts_cutOff hi hk
    rw [hp] at hmem ⊢
    rw [hp']
    exact hn.within j k f f' hj' hk' hmem
  · obtain ⟨e', he', hs, hd, -⟩ := hentry j e he
    rw [hs, hd]
    exact hn.natural j h₀ e' hj he'
  · obtain ⟨g', hj', hp⟩ := parts_cutOff hi hj
    obtain ⟨e', he', -, -, hle⟩ := hentry k e he
    rw [hp] at hk
    exact Ordered.trans hle (hn.reach j g' h₀ hj' hj₀ k hk e' he')

/-- Every move keeps what is nested. -/
theorem Nested.move (hn : Nested t made) (ht : Recorded t log made) {m : Move τ σ}
    (hm : m.IsTimed) (hf : m.IsForward) :
    Nested (t.move m) (made ++ (t.move m).handles.drop t.handles.length) := by
  rcases t.move_cases m with ⟨hsame, -⟩ | ⟨p, start, parts, first, hp, hs, hd, hadd⟩ |
    ⟨i, time, h, rfl, hi, -, hcut⟩
  · rw [hsame, List.drop_length, List.append_nil]
    exact hn
  · rw [hadd]
    exact hn.add ht hp first hs hd hf
  · rw [hcut, drop_handles_cutOff, List.append_nil]
    exact hn.cutOff ht hi hm

/-- Every run keeps what is nested. -/
theorem Nested.run (hn : Nested t made) (ht : Recorded t log made) {moves : List (Move τ σ)}
    (hm : ∀ m ∈ moves, m.IsTimed ∧ m.IsForward) :
    Nested (t.run moves) (made ++ t.made moves) := by
  induction moves generalizing t log made with
  | nil =>
    rw [Timeline.made, List.append_nil]
    exact hn
  | cons m moves ih =>
    obtain ⟨htimed, hforward⟩ := hm m List.mem_cons_self
    rw [Timeline.made, ← List.append_assoc]
    exact ih (hn.move ht htimed hforward) (ht.move htimed)
      fun m' hm' => hm m' (List.mem_cons_of_mem m hm')

/-! ## Reports -/

omit [Scalar τ] [Ordered τ] [Cumulative τ] in
theorem timesOf_ne_nil_iff (log : List (Stop τ)) (i : Nat) :
    timesOf log i ≠ [] ↔ ∃ s ∈ log, s.handle = i := by
  constructor
  · intro hne
    obtain ⟨time, hmem⟩ := List.exists_mem_of_ne_nil _ hne
    obtain ⟨s, hs, hhandle, -⟩ := mem_timesWhere.1 hmem
    exact ⟨s, hs, of_decide_eq_true hhandle⟩
  · rintro ⟨s, hs, hhandle⟩
    exact List.ne_nil_of_mem (mem_timesWhere.2 ⟨s, hs, decide_eq_true hhandle, rfl⟩)

omit [Cumulative τ] in
/-- What a handle covers lasts until the end that it reports, unless the handle was overridden. -/
theorem Nested.lastsUntil_iff (hn : Nested t made) (ht : Recorded t log made) {i : Nat}
    {h : Handle τ} (hi : t.handles[i]? = some h) :
    t.LastsUntil h h.finish ↔ ∀ s ∈ log, t.Overrides s h → h.finish ≤ s.time := by
  obtain ⟨h₀, hi₀, hh⟩ := ht.handle i h hi
  obtain ⟨own, hown⟩ := hn.exists_own hi
  constructor
  · rintro ⟨-, k, hk, e, he, hle⟩ s hs ho
    exact Ordered.trans hle (ht.finish_le_stop hs ho hk he)
  · intro hall
    refine ⟨fun k hk e he => hn.finish_le_handle ht hi hk he, i, hn.own i h hi, own, hown, ?_⟩
    rcases hn.finish_own ht hi hi₀ hown with heq | ⟨s, hs, ho, heq⟩ <;> rw [heq]
    · exact hh.finish.2 _ List.mem_cons_self
    · exact hall s hs ho

omit [Cumulative τ] in
/-- What a handle covers is cut short if the handle was overridden before the end that it had at
first. -/
theorem Nested.cutShort_iff (hn : Nested t made) (ht : Recorded t log made) {i : Nat}
    {h h₀ : Handle τ} (hi : t.handles[i]? = some h) (hi₀ : made[i]? = some h₀) :
    (∃ time, t.LastsUntil h time ∧ time < h₀.finish) ↔
      ∃ s ∈ log, t.Overrides s h ∧ s.time < h₀.finish := by
  obtain ⟨own, hown⟩ := hn.exists_own hi
  have hmem := hn.own i h hi
  constructor
  · rintro ⟨time, ⟨hall, -⟩, hlt⟩
    have hle := hall i hmem own hown
    rcases hn.finish_own ht hi hi₀ hown with heq | ⟨s, hs, ho, heq⟩ <;> rw [heq] at hle
    · exact absurd hle (not_le_of_lt hlt)
    · exact ⟨s, hs, ho, lt_of_le_of_lt hle hlt⟩
  · -- its own entry is then the last one to end
    rintro ⟨s, hs, ho, hlt⟩
    refine ⟨own.finish, ⟨fun k hk e he => hn.finish_le_own ht hi hown hk he, i, hmem, own, hown,
      le_self (ht.entry i own hown).finish.isNumber⟩, ?_⟩
    exact lt_of_le_of_lt (ht.finish_le_stop hs ho hmem hown) hlt

/-- In every run no handle reports an end that is too early. What it covers lasts until the end that
it reports unless it was overridden before this end, and was cut short if it was overridden before
the end that it had at first. It reports that playing was cancelled if it was stopped itself, and
only then. -/
theorem report_of_stops {moves : List (Move τ σ)} (hm : ∀ m ∈ moves, m.IsTimed ∧ m.IsForward) :
    let t := (empty : Timeline τ σ).run moves
    let log := (empty : Timeline τ σ).stops moves
    ∀ (i : Nat) (h : Handle τ), t.handles[i]? = some h →
      ∃ h₀, ((empty : Timeline τ σ).made moves)[i]? = some h₀ ∧
        (∀ k ∈ h.parts, ∀ e, t.entries[k]? = some e → e.finish ≤ h.finish) ∧
        (t.LastsUntil h h.finish ↔ ∀ s ∈ log, t.Overrides s h → h.finish ≤ s.time) ∧
        ((∃ time, t.LastsUntil h time ∧ time < h₀.finish) ↔
          ∃ s ∈ log, t.Overrides s h ∧ s.time < h₀.finish) ∧
        ∀ now, h.finish ≤ now →
          (h.outcome now = some .cancelled ↔ ∃ s ∈ log, s.handle = i) := by
  intro t log i h hi
  have ht : Recorded t log ((empty : Timeline τ σ).made moves) :=
    recorded_empty.run fun m h => (hm m h).1
  have hn : Nested t ((empty : Timeline τ σ).made moves) := nested_empty.run recorded_empty hm
  obtain ⟨h₀, hi₀, hh⟩ := ht.handle i h hi
  refine ⟨h₀, hi₀, fun k hk e he => hn.finish_le_handle ht hi hk he, hn.lastsUntil_iff ht hi,
    hn.cutShort_iff ht hi hi₀, fun now hnow => ?_⟩
  rw [hh.outcome, if_pos hnow, ← timesOf_ne_nil_iff]
  by_cases hnil : timesOf log i = []
  · rw [if_pos hnil]
    exact iff_of_false nofun (not_not_intro hnil)
  · rw [if_neg hnil]
    exact iff_of_true rfl hnil

end

section

/-- A rest, one spliced to it, and a stop of both in the midst of the first. -/
def overtaken : List (Move Float Float) :=
  [.play (.silence 1) 0, .splice 0 (.silence 1), .stop 1 0.5]

theorem report_of_stops_overtaken :
    let t := (empty : Timeline Float Float).run overtaken
    t.handles[0]? = some ⟨[0], 0, 1, none⟩ ∧
      (empty : Timeline Float Float).stops overtaken = [⟨1, 0.5⟩] ∧
      t.Overrides ⟨1, 0.5⟩ ⟨[0], 0, 1, none⟩ ∧ ¬t.LastsUntil ⟨[0], 0, 1, none⟩ 1 ∧
      Handle.outcome (⟨[0], 0, 1, none⟩ : Handle Float) 1 ≠ some .cancelled := by
  intro t
  have hi : t.handles[0]? = some ⟨[0], 0, 1, none⟩ := by decide +kernel
  have hlog : (empty : Timeline Float Float).stops overtaken = [⟨1, 0.5⟩] := by decide +kernel
  have ho : t.Overrides ⟨1, 0.5⟩ ⟨[0], 0, 1, none⟩ :=
    ⟨⟨[0, 1], 0, 0.5, some 0.5⟩, by decide +kernel, by decide⟩
  obtain ⟨h₀, -, -, hlasts, -, houtcome⟩ :=
    @report_of_stops _ _ _ _ _ overtaken (by decide +kernel) 0 _ hi
  refine ⟨hi, hlog, ho, fun h => ?_, fun h => ?_⟩
  · have hle := hlasts.1 h ⟨1, 0.5⟩ (by rw [hlog]; exact List.mem_cons_self) ho
    exact absurd hle (by decide +kernel)
  · obtain ⟨s, hs, hhandle⟩ := (houtcome 1 (by decide +kernel)).1 h
    rw [hlog, List.mem_singleton] at hs
    rw [hs] at hhandle
    cases hhandle

/-- The handle of the first rest reports that it was played to its end, although nothing of it is
played after its middle. -/
theorem stop_unreported :
    ¬(∀ moves : List (Move Float Float), (∀ m ∈ moves, m.IsTimed ∧ m.IsForward) →
      ∀ (i : Nat) (h : Handle Float),
        ((empty : Timeline Float Float).run moves).handles[i]? = some h →
        ((empty : Timeline Float Float).run moves).LastsUntil h h.finish) ∧
    ¬(∀ moves : List (Move Float Float), (∀ m ∈ moves, m.IsTimed ∧ m.IsForward) →
      ∀ (i : Nat) (h h₀ : Handle Float),
        ((empty : Timeline Float Float).run moves).handles[i]? = some h →
        ((empty : Timeline Float Float).made moves)[i]? = some h₀ →
        (∃ time, ((empty : Timeline Float Float).run moves).LastsUntil h time ∧ time < h₀.finish) →
        ∀ now, h.finish ≤ now → h.outcome now = some .cancelled) := by
  have hm : ∀ m ∈ overtaken, m.IsTimed ∧ m.IsForward := by decide +kernel
  have hi : ((empty : Timeline Float Float).run overtaken).handles[0]? =
      some ⟨[0], 0, 1, none⟩ := by decide +kernel
  constructor
  · intro hall
    exact absurd (hall overtaken hm 0 _ hi) (by decide +kernel)
  · intro hall
    have houtcome := hall overtaken hm 0 _ ⟨[0], 0, 1, none⟩ hi (by decide +kernel)
      ⟨0.5, by decide +kernel, by decide +kernel⟩ 1 (by decide +kernel)
    exact absurd houtcome (by decide +kernel)

end

end Timeline

end MusicMacro
