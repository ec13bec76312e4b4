import MusicMacro.Proofs.Directives
import MusicMacro.Proofs.Events
import MusicMacro.Proofs.Session

/-!
# What a submission schedules

A submission schedules one phrase: the sequences of all its voices, together. Each of them plays the
events of its fragment at the tempo that is in force in its voice: the last one that a directive of
this voice or of one before it has set in the same submission, or the tempo of the setup.

* `tempoOf` — the tempo in force in a voice, by the directives.
* `tempoThrough_eq` — the tempo that goes from fragment to fragment is that one.
* `map_phrase_compose` — the phrases of the voices.
* `line_of_submission` — the phrase that is scheduled, and how long it lasts.
-/

namespace MusicMacro

/-! ## Tempos -/

/-- The tempo that a directive sets, if it sets one: from 1 to 2^32 - 1. -/
def Directive.tempo? : Directive → Option Nat
  | .tempo t => if 1 ≤ t ∧ t ≤ greatestTempo then some t else none
  | .instrument _ | .percussion => none

/-- The values that are read one after the other are read one by one. -/
theorem Scanner.exists_of_mem_many {α : Type} {r : Scanner α} (progress : r.Progresses)
    {cs : List Char} {a : α} (h : a ∈ (many r progress cs).1) :
    ∃ cs' rest, r cs' = some (a, rest) := by
  fun_induction many r progress cs with
  | case1 => cases h
  | case2 cs b rest hs _ _ ih =>
    rcases List.mem_cons.1 h with rfl | h
    · exact ⟨cs, rest, hs⟩
    · exact ih h

namespace Directive

/-- Digits set the tempo that they write, unless that is zero or beyond 32 bits. -/
theorem tempo?_tempoOfDigits (digits : List Char) :
    (tempoOfDigits digits).tempo? =
      if 1 ≤ digitsValue digits ∧ digitsValue digits < 2 ^ 32 then some (digitsValue digits)
      else none := by
  have hgreatest : greatestTempo = 2 ^ 32 - 1 := rfl
  unfold tempoOfDigits
  by_cases h : digitsValue digits ≤ greatestTempo
  · rw [if_pos h, tempo?]
    exact if_congr (and_congr_right fun _ => by omega) rfl rfl
  · rw [if_neg h, tempo?, if_neg (by omega), if_neg (by omega)]

/-- No tempo beyond 32 bits is read. -/
theorem le_greatestTempo_of_read {cs rest : List Char} {t : Nat}
    (h : read cs = some (.tempo t, rest)) : t ≤ greatestTempo := by
  obtain ⟨_, -, hw, -⟩ := written_of_read h
  exact Nat.le_of_lt_succ hw.inRange

theorem le_greatestTempo_of_strip {text : List Char} {t : Nat}
    (h : .tempo t ∈ (strip text).1) : t ≤ greatestTempo := by
  obtain ⟨_, _, hr⟩ := Scanner.exists_of_mem_many read_progresses h
  exact le_greatestTempo_of_read hr

/-- After a directive the tempo is the one that it sets, or the one before. -/
theorem tempoAfter_eq {d : Directive} (hd : ∀ t, d = .tempo t → t ≤ greatestTempo) (before : Nat) :
    Fragment.tempoAfter before d = d.tempo?.getD before := by
  cases d with
  | tempo t =>
    cases t with
    | zero => rfl
    | succ t =>
      rw [tempo?, if_pos ⟨Nat.succ_pos t, hd _ rfl⟩]
      rfl
  | instrument i => rfl
  | percussion => rfl

/-- After several directives it is the one that is set last. -/
theorem foldl_tempoAfter {ds : List Directive} (hd : ∀ t, .tempo t ∈ ds → t ≤ greatestTempo)
    (before : Nat) :
    ds.foldl Fragment.tempoAfter before = (ds.filterMap tempo?).getLast?.getD before := by
  induction ds generalizing before with
  | nil => rfl
  | cons d ds ih =>
    have htail := fun t ht => hd t (List.mem_cons_of_mem _ ht)
    rw [List.foldl_cons, ih htail, tempoAfter_eq fun t ht => hd t (ht ▸ List.mem_cons_self)]
    cases hs : d.tempo? with
    | none => rw [List.filterMap_cons_none hs]; rfl
    | some t => rw [List.filterMap_cons_some hs, List.getLast?_cons]; rfl

end Directive

namespace Sequencer

variable {τ σ : Type}

/-- The tempo after some fragments, when the tempo before them is given. -/
def tempoThrough (texts : List (List Char)) (before : Nat) : Nat :=
  texts.foldl (fun tempo text => (Fragment.ofText text).tempo tempo) before

/-- The tempo in force in a voice: the last one that is set in the directives of the voices up to
this one, or the tempo of the setup. -/
def tempoOf (setup : Setup τ σ) (texts : List (List Char)) (i : Nat) : Nat :=
  (((texts.take (i + 1)).flatMap fun text => (Directive.strip text).1).filterMap
    Directive.tempo?).getLast?.getD setup.tempo

theorem tempoThrough_eq (texts : List (List Char)) (before : Nat) :
    tempoThrough texts before =
      ((texts.flatMap fun text => (Directive.strip text).1).filterMap
        Directive.tempo?).getLast?.getD before := by
  rw [← Directive.foldl_tempoAfter, List.foldl_flatMap]
  · rfl
  · intro t ht
    obtain ⟨text, -, ht⟩ := List.mem_flatMap.1 ht
    exact Directive.le_greatestTempo_of_strip ht

/-- No tempo is zero. -/
theorem tempoOf_ne_zero {setup : Setup τ σ} (h : setup.tempo ≠ 0) (texts : List (List Char))
    (i : Nat) : tempoOf setup texts i ≠ 0 := by
  unfold tempoOf
  cases hl : (List.filterMap Directive.tempo? _).getLast? with
  | none => exact h
  | some t =>
    obtain ⟨d, -, hd⟩ := List.mem_filterMap.1 (List.mem_of_getLast? hl)
    cases d with
    | tempo u =>
      rw [Directive.tempo?, Option.ite_none_right_eq_some] at hd
      obtain ⟨⟨hpos, -⟩, hu⟩ := hd
      cases hu
      exact Nat.one_le_iff_ne_zero.1 hpos
    | instrument j => cases hd
    | percussion => cases hd

/-! ## Voices -/

variable [Scalar τ] [Scalar σ] [Tuned τ]

theorem getElem?_parts (s : Sequencer τ σ) (k tempo : Nat) (texts : List (List Char)) (i : Nat) :
    ((s.parts k tempo texts).map (·.phrase))[i]? = texts[i]?.map fun text =>
      (Fragment.ofText text).phrase s.setup (s.voice? (k + i))
        (tempoThrough (texts.take (i + 1)) tempo) := by
  induction texts generalizing k tempo i with
  | nil => rfl
  | cons text texts ih =>
    rw [parts, List.map_cons]
    cases i with
    | zero => rfl
    | succ i =>
      rw [List.getElem?_cons_succ, List.getElem?_cons_succ, ih]
      rw [show k + 1 + i = k + (i + 1) by omega]
      rfl

/-- Each voice plays the phrases of its fragment, at the tempo in force in it. -/
theorem map_phrase_compose (s : Sequencer τ σ) (texts : List (List Char)) :
    (s.compose texts).map (·.phrase) =
      (texts.mapIdx fun i text => (Fragment.ofText text).phrases s.setup (s.voice? i)
        (tempoOf s.setup texts i)).map .sequence := by
  refine List.ext_getElem? fun i => ?_
  rw [compose, getElem?_parts, List.getElem?_map, List.getElem?_mapIdx, Option.map_map,
    Nat.zero_add, tempoThrough_eq]
  rfl

/-! ## The phrase of a submission -/

/-- A submission that succeeds schedules the phrase of all its voices. -/
theorem phrase_of_ok {s : Sequencer τ σ} {texts : List (List Char)} {sub : Submission τ σ}
    (h : (s.submit texts).result = .ok sub) :
    sub.phrase = together (s.compose texts) ∧
      (s.submit texts).sequencer.timeline.entries =
        s.timeline.entries ++ [⟨together (s.compose texts), sub.start,
          (together (s.compose texts)).duration, none⟩] := by
  obtain ⟨after, ha, rfl, heq⟩ := submit_of_ok h
  rw [heq, ← compose_of_awaitQueue ha texts]
  refine ⟨rfl, ?_⟩
  show after.timeline.entries ++ [after.nextEntry _] = _
  rw [eq_of_awaitQueue ha]
  rfl

/-- One that fails after its wait has failed to schedule that phrase. -/
theorem schedule_of_error {s after : Sequencer τ σ} (ha : s.awaitQueue = (true, after))
    {texts : List (List Char)} {e : SubmitError τ} (h : (s.submit texts).result = .error e) :
    after.schedule (together (s.compose texts)) = .error e := by
  rw [(submit_of_reached ha texts).1, commit_eq, compose_of_awaitQueue ha texts] at h
  rw [schedule_eq]
  revert h
  cases after.refusal with
  | some reason =>
    intro h
    cases h
    rfl
  | none =>
    dsimp only
    split
    · exact nofun
    · intro h
      cases h
      rfl

end Sequencer

section

variable {σ : Type} [Scalar σ] [Tuned Rat]

namespace Sequencer

/-- In exact time all voices together last as long as the longest of them. -/
theorem duration_together (s : Sequencer Rat σ) (texts : List (List Char)) :
    (together (s.compose texts)).duration =
      (texts.mapIdx fun i text => 240 / (tempoOf s.setup texts i : Rat) *
        (((Fragment.ofText text).events s.setup (s.voice? i)).map Event.value).sum).foldl
          max 0 := by
  rw [together, map_phrase_compose, Phrase.duration_parallel, List.map_map]
  congr 1
  refine List.ext_getElem? fun i => ?_
  rw [List.getElem?_map, List.getElem?_mapIdx, List.getElem?_mapIdx, Option.map_map]
  congr 1
  funext text
  exact (Fragment.ofText text).duration_phrase s.setup (s.voice? i) (tempoOf s.setup texts i)

/-- So does what has been submitted. -/
theorem finish_sub_start {s : Sequencer Rat σ} {texts : List (List Char)} {sub : Submission Rat σ}
    (h : (s.submit texts).result = .ok sub) :
    sub.finish - sub.start = (together (s.compose texts)).duration := by
  obtain ⟨after, ha, rfl, -⟩ := submit_of_ok h
  rw [← compose_of_awaitQueue ha texts]
  show (after.nextEntry _).finish - after.nextStart = _
  rw [Entry.finish_of_none rfl]
  exact add_sub_cancel_left _ _

end Sequencer

end

namespace Sequencer

/-- A submission schedules one phrase: a sequence for each of its voices, all together. Each voice
plays the events of its fragment, in order, at the tempo that was set last in the voices up to it.
In exact time the submission lasts as long as the longest voice. -/
theorem line_of_submission :
    (∀ {τ σ : Type} [Scalar τ] [Scalar σ] [Tuned τ] (s : Sequencer τ σ) (texts : List (List Char)),
      s.setup.check = .ok () →
      (∃ voices : List (List (Phrase τ σ)),
        together (s.compose texts) = .parallel (voices.map .sequence) ∧
        voices.length = texts.length ∧
        ∀ (i : Nat) (text : List Char) (voice : List (Phrase τ σ)), texts[i]? = some text →
          voices[i]? = some voice →
          List.Forall₂ (Plays (tempoOf s.setup texts i))
            ((Fragment.ofText text).events s.setup (s.voice? i)) voice) ∧
      (∀ i, tempoOf s.setup texts i ≠ 0) ∧
      (∀ sub, (s.submit texts).result = .ok sub →
        sub.phrase = together (s.compose texts) ∧
        (s.submit texts).sequencer.timeline.entries = s.timeline.entries ++
          [⟨together (s.compose texts), sub.start, (together (s.compose texts)).duration, none⟩]) ∧
      ∀ after e, s.awaitQueue = (true, after) → (s.submit texts).result = .error e →
        after.schedule (together (s.compose texts)) = .error e) ∧
    (∀ digits, (Directive.tempoOfDigits digits).tempo? =
      if 1 ≤ digitsValue digits ∧ digitsValue digits < 2 ^ 32 then some (digitsValue digits)
      else none) ∧
    ∀ {σ : Type} [Scalar σ] [Tuned Rat] (s : Sequencer Rat σ) (texts : List (List Char))
      (sub : Submission Rat σ), (s.submit texts).result = .ok sub →
      sub.finish - sub.start =
        (texts.mapIdx fun i text => 240 / (tempoOf s.setup texts i : Rat) *
          (((Fragment.ofText text).events s.setup (s.voice? i)).map Event.value).sum).foldl
            max 0 := by
  refine ⟨?_, Directive.tempo?_tempoOfDigits, fun s texts sub h => ?_⟩
  · intro τ σ _ _ _ s texts hc
    obtain ⟨-, -, htempo, -⟩ := (Setup.check_eq_ok_iff _).1 hc
    refine ⟨⟨texts.mapIdx fun i text => (Fragment.ofText text).phrases s.setup (s.voice? i)
      (tempoOf s.setup texts i), ?_, List.length_mapIdx, ?_⟩, tempoOf_ne_zero htempo texts,
      fun sub => phrase_of_ok, fun after e ha => schedule_of_error ha⟩
    · rw [together, map_phrase_compose]
    · intro i text voice htext hvoice
      rw [List.getElem?_mapIdx, htext, Option.map_some] at hvoice
      cases hvoice
      exact Fragment.plays_phrases _ _ _ _
  · rw [finish_sub_start h, duration_together]

section

open scoped Octaves

/-- Three voices: one that sets no tempo, one that sets three of which two do not count, and
percussion after it. -/
def trio : List (List Char) :=
  ["c", "t0 t60 t4294967296 d8 r", "@drum l2 r"].map String.toList

theorem line_of_submission_trio :
    let s : Sequencer Rat Rat := fresh .default
    (List.range 3).map (tempoOf s.setup trio) = [120, 60, 60] ∧
      ∃ sub, (s.submit trio).result = .ok sub ∧ sub.finish - sub.start = 2 ∧
        sub.phrase = together (s.compose trio) := by
  intro s
  obtain ⟨hline, -, hlasts⟩ := line_of_submission
  have hc : s.setup.check = .ok () := by decide +kernel
  obtain ⟨after, ha⟩ := awaitQueue_of_no_press (s := s) rfl
  obtain ⟨sub, hsub⟩ := submit_of_awaitQueue ha rfl (fun _ => rfl) trio
  refine ⟨by decide +kernel, sub, hsub, ?_, ((hline s trio hc).2.2.1 sub hsub).1⟩
  rw [hlasts s trio sub hsub]
  decide +kernel

end

end Sequencer

end MusicMacro
