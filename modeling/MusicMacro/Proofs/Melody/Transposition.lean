import MusicMacro.Proofs.Melody.Meaning
import MusicMacro.Proofs.Melody.Pitches

/-!
# Transposing a melody

A melody that starts some octaves higher is the same melody so many octaves higher. What its text
says is read before any octave is known, and performing what has been read goes along with a
transposition, command by command. How long the default length is at the start has a bearing on
lengths, but on no pitch.

* `State.transpose`, `Note.transpose`, `Meant.transpose` — octaves added to what a performer keeps,
  to a note, and to a note on paper.
* `Command.next_transpose`, `Command.note?_transpose` — a command goes along with a transposition.
* `final_transpose`, `notes_transpose` — so does a list of commands.
* `play_transposed` — and so does every text, with the tokens of every dialect.
-/

namespace MusicMacro.Melody

/-- A performer some octaves higher. -/
def State.transpose (k : Int32) (s : State) : State := { s with octave := s.octave + k }

/-- A note some octaves higher. A rest stays a rest. -/
def Note.transpose (k : Int32) (n : Note) : Note := { n with pitch := n.pitch.map (· + 12 * k) }

/-- A note on paper some octaves higher. -/
def Meant.transpose (k : Int) (m : Meant) : Meant := { m with pitch := m.pitch.map (· + 12 * k) }

/-- A note is performed higher as it is meant to be, with 32 bits of its pitch kept. -/
theorem Note.transpose_ofInt (k : Int) (n : Note) :
    n.transpose (.ofInt k) = (n.meant.transpose k).note := by
  obtain ⟨pitch, length⟩ := n
  cases pitch with
  | none => rfl
  | some p =>
    have hp : p + 12 * Int32.ofInt k = Int32.ofInt (p.toInt + 12 * k) := by
      rw [Int32.ofInt_add, Int32.ofInt_toInt, Int32.ofInt_mul]
      rfl
    exact congrArg (fun p => Note.mk (some p) length) hp

/-! ## One command -/

/-- Accidentals add to a pitch what they add to any other. -/
theorem foldl_accidentals_add (accidentals : List Accidental) (p q : Pitch) :
    accidentals.foldl (fun p a => p + a.semitones) (p + q) =
      accidentals.foldl (fun p a => p + a.semitones) p + q := by
  induction accidentals generalizing p with
  | nil => rfl
  | cons a accidentals ih =>
    have hcomm : p + q + a.semitones = p + a.semitones + q := by grind
    rw [List.foldl_cons, List.foldl_cons, hcomm, ih]

theorem pitch_add (octave k : Int32) (degree : Degree) (accidentals : List Accidental) :
    pitch (octave + k) degree accidentals = pitch octave degree accidentals + 12 * k := by
  have hbase : degree.semitones + 12 * (octave + k - 1) =
      degree.semitones + 12 * (octave - 1) + 12 * k := by grind
  rw [pitch, hbase, foldl_accidentals_add, pitch]

namespace Command

theorem next_transpose (k : Int32) (s : State) (c : Command) :
    c.next (s.transpose k) = (c.next s).transpose k := by
  cases c with
  | tone | rest | setLength => rfl
  | octaveUp =>
    have hup : s.octave + k + 1 = s.octave + 1 + k := by grind
    exact congrArg (State.mk s.length) hup
  | octaveDown =>
    have hdown : s.octave + k - 1 = s.octave - 1 + k := by grind
    exact congrArg (State.mk s.length) hdown

theorem note?_transpose (k : Int32) (s : State) (c : Command) :
    c.note? (s.transpose k) = (c.note? s).map (Note.transpose k) := by
  cases c with
  | tone degree accidentals length =>
    show some (Note.mk (some (pitch (s.octave + k) degree accidentals)) _) = _
    rw [pitch_add]
    rfl
  | rest | setLength | octaveUp | octaveDown => rfl

end Command

/-! ## All commands -/

theorem final_transpose (k : Int32) (s : State) (commands : List Command) :
    final (s.transpose k) commands = (final s commands).transpose k := by
  induction commands generalizing s with
  | nil => rfl
  | cons c rest ih =>
    show final (c.next (s.transpose k)) rest = (final (c.next s) rest).transpose k
    rw [c.next_transpose, ih]

theorem notes_transpose (k : Int32) (s : State) (commands : List Command) :
    notes (s.transpose k) commands = (notes s commands).map (Note.transpose k) := by
  induction commands generalizing s with
  | nil => rfl
  | cons c rest ih =>
    rw [notes, notes, c.next_transpose, ih, c.note?_transpose, List.map_append, Option.toList_map]

/-! ## Every text -/

/-- From `k` octaves higher a text yields the same notes and rests with the same lengths, every note
`12 * k` semitones higher, and leaves the same default length and an octave higher by `k`; and that
much higher as numbers, wherever they fit. From another default length it yields the same pitches
and rests, and leaves the same octave. -/
theorem play_transposed (tokens : Tokens) (text : List Char) (length : NoteLength)
    (octave : Int32) (k : Int) :
    let played := play tokens ⟨length, octave⟩ text
    let shifted := play tokens ⟨length, octave + .ofInt k⟩ text
    let higher := played.1.map fun n => Meant.mk (n.pitch.map (·.toInt + 12 * k)) n.length
    shifted = (played.1.map fun n => ⟨n.pitch.map (· + 12 * .ofInt k), n.length⟩,
        ⟨played.2.length, played.2.octave + .ofInt k⟩) ∧
      ((∀ m ∈ higher, m.Fits) → shifted.1.map Note.meant = higher) ∧
      (Fits (played.2.octave.toInt + k) →
        shifted.2.octave.toInt = played.2.octave.toInt + k) ∧
      ∀ length', (play tokens ⟨length', octave⟩ text).1.map Note.pitch =
          played.1.map Note.pitch ∧
        (play tokens ⟨length', octave⟩ text).2.octave = played.2.octave := by
  intro played shifted higher
  have hshifted : shifted = (played.1.map (Note.transpose (.ofInt k)),
      played.2.transpose (.ofInt k)) :=
    Prod.ext (notes_transpose (.ofInt k) ⟨length, octave⟩ _)
      (final_transpose (.ofInt k) ⟨length, octave⟩ _)
  have hnotes : played.1.map (Note.transpose (.ofInt k)) = higher.map Meant.note := by
    rw [List.map_map]
    refine List.map_congr_left fun n _ => ?_
    rw [n.transpose_ofInt, Meant.transpose, Note.meant, Option.map_map]
    rfl
  refine ⟨hshifted, fun hfits => ?_, fun hfits => ?_, fun length' => ⟨?_, ?_⟩⟩
  · rw [hshifted, hnotes]
    exact map_meant_note hfits
  · rw [hshifted]
    show (played.2.octave + .ofInt k).toInt = _
    rw [← hfits.toInt_ofInt, Int32.ofInt_add, Int32.ofInt_toInt]
  · exact (map_pitch_notes ⟨length', octave⟩ _).trans (map_pitch_notes ⟨length, octave⟩ _).symm
  · exact (octave_final ⟨length', octave⟩ _).trans (octave_final ⟨length, octave⟩ _).symm

end MusicMacro.Melody
