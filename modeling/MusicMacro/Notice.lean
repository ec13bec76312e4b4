import MusicMacro.NoteLength
import MusicMacro.Number.Decimal
import MusicMacro.Voice

/-!
# Notices

What a run has to say beside its result, from warnings down to traces of what was read. A notice is
a value; `Notice.text` puts it into words.
-/

namespace MusicMacro

/-- How important a notice is; the most important level stands first. -/
inductive Level
  | error
  | warning
  | info
  | debug
  | trace
deriving DecidableEq, Repr

namespace Level

/-- A smaller rank is more important. -/
def rank : Level → Nat
  | error => 1
  | warning => 2
  | info => 3
  | debug => 4
  | trace => 5

/-- The name in front of a notice. -/
def label : Level → String
  | error => "error"
  | warning => "warning"
  | info => "info"
  | debug => "debug"
  | trace => "trace"

/-- The least important level that is shown, by how often more was asked for. -/
def shown : Nat → Level
  | 0 => warning
  | 1 => info
  | 2 => debug
  | _ => trace

end Level

/-- A directive that chose an instrument which does not exist. -/
structure Warning where
  voice : Nat
  requested : Nat
  available : Nat
deriving DecidableEq, Repr

/-- The words of a warning. -/
def Warning.text (w : Warning) : String :=
  s!"instrument select out of range: @{w.requested} in voice {w.voice} ({w.available} instruments)"

/-- What a run has to say. -/
inductive Notice (τ σ : Type)
  | overflow (o : NoteLength.Overflow)
  | melodyRead (notes : Nat) (s : Melody.State)
  | percussionRead (beats : Nat) (s : Percussion.State)
  | tempoIgnored (voice : Nat)
  | warning (w : Warning)
  | waiting (queued wait : τ)
  | stopDiscarded
  | submitted (voices : Nat) (start finish : τ)
  | loaded (path : String) (channels rate frames : Nat)
  | instruments (names : List String)
  | drums (names : List String)
  | chunk (index : Nat) (voices : List String)
  | chunkSubmitted (index voices : Nat) (start finish : τ)
  | writing (samples : Nat) (path : String)
  | peak (amplitude : σ) (index : Nat)
deriving Repr

namespace Notice

/-- How important a notice is. -/
def level {τ σ : Type} : Notice τ σ → Level
  | warning _ => .warning
  | chunkSubmitted .. | writing .. | peak .. => .info
  | melodyRead .. | percussionRead .. => .trace
  | overflow _ | tempoIgnored _ | waiting .. | stopDiscarded | submitted .. | loaded ..
  | instruments _ | drums _ | chunk .. => .debug

/-! ## Words -/

/-- The two terms of a length, spelt out. -/
def lengthDetail (a : NoteLength) : String :=
  "NoteLength(Ratio \x7b numer: " ++ toString a.numerator ++ ", denom: " ++
    toString a.denominator ++ " \x7d)"

/-- The state after a melody. -/
def melodyDetail (s : Melody.State) : String :=
  "MelodyState \x7b length: " ++ lengthDetail s.length ++ ", octave: " ++ toString s.octave ++
    " \x7d"

/-- The state after percussion. -/
def percussionDetail (s : Percussion.State) : String :=
  let octave := s.octave.elim "None" fun n => "Some(" ++ toString n ++ ")"
  "RhythmState \x7b length: " ++ lengthDetail s.length ++ ", octave: " ++ octave ++ " \x7d"

/-- The words of an operation that does not fit. -/
def overflowText : NoteLength.Overflow → String
  | .sum a b => s!"note length overflow: {a.toText} + {b.toText}"
  | .product a b => s!"note length overflow: {a.toText} * {b.toText}"

/-- Names with their indices. -/
def numbered (names : List String) : List String :=
  names.zipIdx.map fun (name, i) => s!"@{i}={name}"

/-- The words of a notice. -/
def text : Notice Float Float32 → String
  | overflow o => overflowText o
  | melodyRead n s => s!"parsed {n} notes, state: " ++ melodyDetail s
  | percussionRead n s => s!"parsed {n} drums, state: " ++ percussionDetail s
  | tempoIgnored voice => s!"voice {voice}: ignored tempo 0"
  | warning w => w.text
  | waiting queued wait => s!"{Double.text queued} sec queued, waiting {Double.text wait} sec"
  | stopDiscarded => "discarded a stop request issued while not waiting"
  | submitted n start finish =>
    s!"submitted {n} voices: {Double.text start} - {Double.text finish} sec"
  | loaded path channels rate frames =>
    s!"loaded {path}: {channels} ch, {rate} Hz, {frames} samples"
  | instruments names => "instruments: " ++ " ".intercalate (numbered names)
  | drums names => "drums: " ++ " ".intercalate names
  | chunk i voices => s!"chunk {i}: " ++ " ".intercalate (voices.map fun v => "[" ++ v ++ "]")
  | chunkSubmitted i n start finish =>
    s!"chunk {i}: {n} voices, " ++ Double.fixedText 3 start ++ " - " ++
      Double.fixedText 3 finish ++ " sec"
  | writing n path => s!"writing {n} samples to {path}"
  | peak amplitude i => s!"max amplitude (abs): {Single.text amplitude} at sample {i}"

/-- The notice as a line of a log. -/
def line (n : Notice Float Float32) : String := s!"[{n.level.label}] {n.text}"

/-- Whether a notice is shown, by how often more was asked for. -/
def isShown {τ σ : Type} (verbosity : Nat) (n : Notice τ σ) : Bool :=
  n.level.rank ≤ (Level.shown verbosity).rank

end Notice

end MusicMacro
