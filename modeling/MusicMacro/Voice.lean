import MusicMacro.Melody.Performance
import MusicMacro.Percussion.Performance

/-!
# Voices

A voice remembers where its last fragment left off. It may change between melody and percussion:
the default length goes along, and the octave of the melody waits until the next melody.

* `toMelody_toPercussion` — percussion in between changes no state of a melody.
-/

namespace MusicMacro

/-- Where the last fragment of a voice left off. -/
inductive Voice
  | melody (s : Melody.State)
  | percussion (s : Percussion.State)
deriving DecidableEq, Repr

namespace Voice

/-- The default length. -/
def length : Voice → NoteLength
  | melody s => s.length
  | percussion s => s.length

/-- Where a melody goes on: in the octave of the melody before, or in the start octave. -/
def toMelody : Voice → Melody.State
  | melody s => s
  | percussion s => ⟨s.length, s.octave.getD Melody.startOctave⟩

/-- Where percussion goes on; it keeps the octave of the melody before. -/
def toPercussion : Voice → Percussion.State
  | melody s => ⟨s.length, some s.octave⟩
  | percussion s => s

theorem toMelody_toPercussion (v : Voice) :
    (percussion v.toPercussion).toMelody = v.toMelody := by
  cases v <;> rfl

end Voice

end MusicMacro
