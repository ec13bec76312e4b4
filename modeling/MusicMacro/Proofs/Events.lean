import Mathlib.Algebra.Order.BigOperators.Group.List
import Mathlib.Data.List.Forall2
import Mathlib.Tactic.Ring
import MusicMacro.Fragment
import MusicMacro.Proofs.Exact

/-!
# Events

The music of a fragment is read as events: notes and rests of a melody, strokes and rests of
percussion. Its phrase plays them one after the other, a tone for what sounds and a silence for a
rest, each for as long as its length lasts at the tempo.

* `Plays` — how a phrase plays an event.
* `Fragment.plays_phrases` — a fragment plays its events, in order.
* `Fragment.duration_phrase` — in exact time it lasts as long as its events together.
-/

namespace MusicMacro

/-- What is heard of a note or of a beat: whether it sounds, and how long it is. -/
structure Event where
  sounds : Bool
  length : NoteLength
deriving DecidableEq, Repr

/-- A note as an event. -/
def Melody.Note.event (n : Note) : Event := ⟨n.pitch.isSome, n.length⟩

/-- A beat as an event. -/
def Percussion.Beat.event {δ : Type} (b : Beat δ) : Event := ⟨b.drum.isSome, b.length⟩

variable {τ σ : Type}

/-- The phrase plays the event at a tempo: it is a tone or a silence, and it lasts for the length of
the event, in whole notes of 240 seconds divided by the tempo. -/
inductive Plays [Scalar τ] (tempo : Nat) : Event → Phrase τ σ → Prop
  | tone {a : NoteLength} {t : Tone τ σ} :
    t.duration = (a.numerator : τ) / (a.denominator : τ) * ((240 : Nat) : τ) / (tempo : τ) →
      Plays tempo ⟨true, a⟩ (.tone t)
  | silence {a : NoteLength} {d : τ} :
    d = (a.numerator : τ) / (a.denominator : τ) * ((240 : Nat) : τ) / (tempo : τ) →
      Plays tempo ⟨false, a⟩ (.silence d)

namespace Fragment

variable (f : Fragment) (setup : Setup τ σ) (previous : Option Voice)

/-- The events of the music, read from where the voice left off. -/
def events : List Event :=
  if f.isPercussion then
    (Percussion.play setup.percussion setup.kit (percussionStart previous) f.music).1.map
      Percussion.Beat.event
  else (Melody.play setup.melody (melodyStart previous) f.music).1.map Melody.Note.event

/-- The phrases of the fragment, one for every note or beat. -/
def phrases [Scalar τ] [Scalar σ] [Tuned τ] (tempo : Nat) : List (Phrase τ σ) :=
  if f.isPercussion then
    (Percussion.beats setup.percussion (percussionStart previous)
      (f.percussionCommands setup)).map (beatPhrase setup.amplitude tempo)
  else
    (Melody.notes (melodyStart previous) (f.melodyCommands setup)).map
      (notePhrase setup.amplitude tempo (f.instrument setup.instruments))

theorem phrase_eq [Scalar τ] [Scalar σ] [Tuned τ] (tempo : Nat) :
    f.phrase setup previous tempo = .sequence (f.phrases setup previous tempo) := rfl

theorem plays_beatPhrase [Scalar τ] [Scalar σ] (amplitude : τ) (tempo : Nat)
    (b : Percussion.Beat (Instrument σ)) : Plays tempo b.event (beatPhrase amplitude tempo b) := by
  unfold beatPhrase Percussion.Beat.event
  cases b.drum with
  | some i => exact .tone rfl
  | none => exact .silence rfl

theorem plays_notePhrase [Scalar τ] [Scalar σ] [Tuned τ] (amplitude : τ) (tempo : Nat)
    (i : Instrument σ) (n : Melody.Note) :
    Plays tempo n.event (notePhrase amplitude tempo i n) := by
  unfold notePhrase Melody.Note.event
  cases n.pitch with
  | some p => exact .tone rfl
  | none => exact .silence rfl

/-- A fragment plays its events, in order. -/
theorem plays_phrases [Scalar τ] [Scalar σ] [Tuned τ] (tempo : Nat) :
    List.Forall₂ (Plays tempo) (f.events setup previous) (f.phrases setup previous tempo) := by
  unfold events phrases
  split
  · rw [List.forall₂_map_left_iff, List.forall₂_map_right_iff, Percussion.play, Percussion.perform]
    exact List.forall₂_same.2 fun b _ => plays_beatPhrase _ _ b
  · rw [List.forall₂_map_left_iff, List.forall₂_map_right_iff, Melody.play, Melody.perform]
    exact List.forall₂_same.2 fun n _ => plays_notePhrase _ _ _ n

end Fragment

/-! ## In exact time -/

/-- The length of an event as a number. -/
def Event.value (e : Event) : Rat := (e.length.numerator : Rat) / (e.length.denominator : Rat)

theorem Event.value_nonneg (e : Event) : 0 ≤ e.value :=
  div_nonneg (Nat.cast_nonneg _) (Nat.cast_nonneg _)

theorem Plays.duration_eq {tempo : Nat} {e : Event} {p : Phrase Rat σ} (h : Plays tempo e p) :
    p.duration = 240 / (tempo : Rat) * e.value := by
  have heq (a : NoteLength) :
      (a.numerator : Rat) / (a.denominator : Rat) * ((240 : Nat) : Rat) / (tempo : Rat) =
        240 / (tempo : Rat) * (a.numerator / a.denominator) := by
    push_cast
    ring
  cases h with
  | tone hd => rw [Phrase.duration, hd]; exact heq _
  | silence hd => rw [Phrase.duration, hd]; exact heq _

theorem Plays.sum_eq {tempo : Nat} {es : List Event} {ps : List (Phrase Rat σ)}
    (h : List.Forall₂ (Plays tempo) es ps) :
    (ps.map Phrase.duration).sum = 240 / (tempo : Rat) * (es.map Event.value).sum := by
  induction h with
  | nil => exact (mul_zero _).symm
  | cons hp _ ih =>
    rw [List.map_cons, List.map_cons, List.sum_cons, List.sum_cons, hp.duration_eq, ih, mul_add]

namespace Fragment

variable [Scalar σ] [Tuned Rat] (f : Fragment) (setup : Setup Rat σ) (previous : Option Voice)
  (tempo : Nat)

/-- A fragment lasts as long as its events together. -/
theorem duration_phrase : (f.phrase setup previous tempo).duration =
    240 / (tempo : Rat) * ((f.events setup previous).map Event.value).sum := by
  rw [phrase_eq, Phrase.duration_sequence, Plays.sum_eq (f.plays_phrases setup previous tempo)]

theorem duration_phrase_nonneg : 0 ≤ (f.phrase setup previous tempo).duration := by
  rw [duration_phrase]
  refine mul_nonneg (div_nonneg (by norm_num) (Nat.cast_nonneg _)) (List.sum_nonneg ?_)
  intro a ha
  obtain ⟨e, -, rfl⟩ := List.mem_map.1 ha
  exact e.value_nonneg

end Fragment

end MusicMacro
