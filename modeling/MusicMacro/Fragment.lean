import MusicMacro.Directive
import MusicMacro.Notice
import MusicMacro.Phrase
import MusicMacro.Setup

/-!
# Fragments

A fragment is what one voice gets in one submission: directives, and then music. With a setup and
the state of the voice it becomes a phrase and the next state of the voice.

The tempo goes from voice to voice within a submission: `tempo` says what a fragment makes of the
tempo it finds. Everything else depends on the fragment and its own voice only. A tempo counts
quarter notes in a minute, so a whole note lasts 240 seconds divided by the tempo.
-/

namespace MusicMacro

namespace NoteLength

variable {τ : Type} [Scalar τ]

/-- The length as a number. -/
def toScalar (a : NoteLength) : τ := (a.numerator : τ) / (a.denominator : τ)

/-- The duration at a tempo. -/
def seconds (a : NoteLength) (tempo : τ) : τ := a.toScalar * ((240 : Nat) : τ) / tempo

end NoteLength

/-- Directives, and the music after them. -/
structure Fragment where
  directives : List Directive
  music : List Char
deriving DecidableEq, Repr

/-- The frequency of every drum. -/
def drumFrequency {τ : Type} [Scalar τ] : τ := ((440 : Nat) : τ)

namespace Fragment

/-- Reads a fragment. -/
def ofText (cs : List Char) : Fragment := ⟨(Directive.strip cs).1, (Directive.strip cs).2⟩

/-! ## Directives -/

/-- Whether the fragment is percussion. -/
def isPercussion (f : Fragment) : Bool := f.directives.contains .percussion

/-- The tempo in force after a directive; zero is no tempo. -/
def tempoAfter (tempo : Nat) : Directive → Nat
  | .tempo 0 => tempo
  | .tempo t => t
  | .instrument _ | .percussion => tempo

/-- The tempo of the fragment, when the tempo before it is given. -/
def tempo (f : Fragment) (before : Nat) : Nat := f.directives.foldl tempoAfter before

/-- The instrument that a directive chooses, if there is one with that index. -/
def choice? {α : Type} (instruments : List α) : Directive → Option α
  | .instrument i => instruments[i]?
  | .tempo _ | .percussion => none

/-- The instrument of the fragment: the last one that is chosen, or the first of all. -/
def instrument {σ : Type} (f : Fragment) (instruments : List (Instrument σ)) : Instrument σ :=
  (f.directives.filterMap (choice? instruments)).getLast?.getD (instruments.headD .default)

/-- The warning about a directive, if it chooses an instrument that does not exist. -/
def warning? (voice available : Nat) : Directive → Option Warning
  | .instrument i => if i < available then none else some ⟨voice, i, available⟩
  | .tempo _ | .percussion => none

/-- The warnings about the fragment of a voice. -/
def warnings (f : Fragment) (voice available : Nat) : List Warning :=
  f.directives.filterMap (warning? voice available)

/-! ## Music -/

variable {τ σ : Type}

/-- Where a melody goes on. -/
def melodyStart (previous : Option Voice) : Melody.State := previous.elim .start Voice.toMelody

/-- Where percussion goes on. -/
def percussionStart (previous : Option Voice) : Percussion.State :=
  previous.elim .start Voice.toPercussion

/-- The commands of a melody. -/
def melodyCommands (f : Fragment) (setup : Setup τ σ) : List Melody.Command :=
  setup.melody.commands f.music

/-- The commands of percussion. -/
def percussionCommands (f : Fragment) (setup : Setup τ σ) :
    List (Percussion.Command (Instrument σ)) :=
  setup.percussion.commands setup.kit f.music

/-- The state of the voice after the fragment. -/
def voice (f : Fragment) (setup : Setup τ σ) (previous : Option Voice) : Voice :=
  if f.isPercussion then
    .percussion (Percussion.final (percussionStart previous) (f.percussionCommands setup))
  else .melody (Melody.final (melodyStart previous) (f.melodyCommands setup))

variable [Scalar τ] [Tuned τ]

omit [Tuned τ] in
/-- The phrase of a beat. -/
def beatPhrase [Scalar σ] (amplitude : τ) (tempo : Nat)
    (b : Percussion.Beat (Instrument σ)) : Phrase τ σ :=
  let duration := b.length.seconds (tempo : τ)
  match b.drum with
  | some i => .tone ⟨duration, drumFrequency, amplitude, i, .drum⟩
  | none => .silence duration

/-- The phrase of a note. -/
def notePhrase [Scalar σ] (amplitude : τ) (tempo : Nat) (i : Instrument σ)
    (n : Melody.Note) : Phrase τ σ :=
  let duration := n.length.seconds (tempo : τ)
  match n.pitch with
  | some p => .tone ⟨duration, p.frequency, amplitude, i, i.envelope⟩
  | none => .silence duration

/-- The phrase of the fragment at a tempo: its notes or beats, one after the other. -/
def phrase [Scalar σ] (f : Fragment) (setup : Setup τ σ) (previous : Option Voice) (tempo : Nat) :
    Phrase τ σ :=
  .sequence (
    if f.isPercussion then
      (Percussion.beats setup.percussion (percussionStart previous)
        (f.percussionCommands setup)).map (beatPhrase setup.amplitude tempo)
    else
      (Melody.notes (melodyStart previous) (f.melodyCommands setup)).map
        (notePhrase setup.amplitude tempo (f.instrument setup.instruments)))

/-! ## Notices -/

omit [Scalar τ] [Tuned τ] in
/-- What there is to say about a directive. -/
def directiveNotices (voice available : Nat) (d : Directive) : List (Notice τ σ) :=
  if d = .tempo 0 then [.tempoIgnored voice]
  else (warning? voice available d).toList.map .warning

omit [Scalar τ] [Tuned τ] in
/-- What there is to say about the music. -/
def musicNotices (f : Fragment) (setup : Setup τ σ) (previous : Option Voice) :
    List (Notice τ σ) :=
  if f.isPercussion then
    let s := percussionStart previous
    let cs := f.percussionCommands setup
    (Percussion.overflows setup.percussion s cs).map .overflow ++
      [.percussionRead (Percussion.beats setup.percussion s cs).length (Percussion.final s cs)]
  else
    let s := melodyStart previous
    let cs := f.melodyCommands setup
    (Melody.overflows s cs).map .overflow ++
      [.melodyRead (Melody.notes s cs).length (Melody.final s cs)]

omit [Scalar τ] [Tuned τ] in
/-- What there is to say about the fragment of a voice. -/
def notices (f : Fragment) (setup : Setup τ σ) (index : Nat) (previous : Option Voice) :
    List (Notice τ σ) :=
  f.directives.flatMap (directiveNotices index setup.instruments.length) ++
    f.musicNotices setup previous

end Fragment

end MusicMacro
