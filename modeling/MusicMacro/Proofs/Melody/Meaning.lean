import Mathlib.Algebra.Ring.Int.Defs
import MusicMacro.Melody.Performance

/-!
# What a melody means

On paper octaves and pitches have no limits. A performer keeps 32 bits of them, so what is performed
is what is meant, with 32 bits of every pitch kept. Where the pitches fit, that is exactly what is
meant, even if the octave has gone round on the way.

* `Fits` — what can be kept in 32 bits.
* `Meant` — a note on paper, as against `Note`, which is performed.
* `interpret` — what commands mean.
* `perform_eq_interpret` — what is performed is what is meant, with 32 bits kept.
* `map_meant_note` — and exactly what is meant, where that fits.
-/

namespace MusicMacro.Melody

/-- The number can be kept in 32 bits. -/
def Fits (n : Int) : Prop := -2 ^ 31 ≤ n ∧ n < 2 ^ 31

instance (n : Int) : Decidable (Fits n) := inferInstanceAs (Decidable (_ ∧ _))

variable {n : Int}

theorem Fits.toInt_ofInt (h : Fits n) : (Int32.ofInt n).toInt = n := Int32.toInt_ofInt_of_le h.1 h.2

/-! ## Notes -/

/-- A note on paper, or a rest where there is no pitch. -/
structure Meant where
  pitch : Option Int
  length : NoteLength
deriving DecidableEq, Repr

/-- The note as it is performed. -/
def Meant.note (m : Meant) : Note := ⟨m.pitch.map Int32.ofInt, m.length⟩

/-- The note as it is written down. -/
def Note.meant (n : Note) : Meant := ⟨n.pitch.map Int32.toInt, n.length⟩

/-- The note can be performed as it is meant. -/
def Meant.Fits (m : Meant) : Prop := ∀ p ∈ m.pitch, Melody.Fits p

instance (m : Meant) : Decidable m.Fits :=
  inferInstanceAs (Decidable (∀ p ∈ m.pitch, Melody.Fits p))

theorem Meant.Fits.meant_note {m : Meant} (h : m.Fits) : m.note.meant = m := by
  obtain ⟨pitch, length⟩ := m
  cases pitch with
  | none => rfl
  | some p => exact congrArg (fun p => Meant.mk (some p) length) (h p rfl).toInt_ofInt

theorem map_meant_note {ms : List Meant} (h : ∀ m ∈ ms, m.Fits) :
    (ms.map Meant.note).map Note.meant = ms := by
  have hcongr : ms.map (Note.meant ∘ Meant.note) = ms.map id :=
    List.map_congr_left fun m hm => (h m hm).meant_note
  rw [List.map_map, hcongr, List.map_id]

/-! ## Commands -/

/-- What a command means in an octave, with a default length: the notes that it yields, and the
default length and the octave after it. -/
def meaning (length : NoteLength) (octave : Int) : Command → List Meant × NoteLength × Int
  | .tone k accidentals t =>
    ([⟨some (k.semitones.toInt + 12 * (octave - 1) +
      accidentals.count .sharp - accidentals.count .flat), t.value length⟩], length, octave)
  | .rest t => ([⟨none, t.value length⟩], length, octave)
  | .setLength t => ([], t.value length, octave)
  | .octaveUp => ([], length, octave + 1)
  | .octaveDown => ([], length, octave - 1)

/-- What commands mean, one after the other. -/
def interpret (length : NoteLength) (octave : Int) :
    List Command → List Meant × NoteLength × Int
  | [] => ([], length, octave)
  | command :: commands =>
    let (notes, length, octave) := meaning length octave command
    let (more, last) := interpret length octave commands
    (notes ++ more, last)

/-- The accidentals of a tone may be counted. -/
theorem foldl_accidentals (accidentals : List Accidental) (n : Int) :
    accidentals.foldl (fun p a => p + a.semitones) (Int32.ofInt n) =
      Int32.ofInt (n + accidentals.count .sharp - accidentals.count .flat) := by
  induction accidentals generalizing n with
  | nil => simp
  | cons a accidentals ih =>
    have step (d : Int) (hd : a.semitones = Int32.ofInt d) :
        Int32.ofInt n + a.semitones = Int32.ofInt (n + d) := by rw [hd, Int32.ofInt_add]
    rw [List.foldl_cons]
    cases a with
    | sharp =>
      rw [step 1 rfl, ih, List.count_cons_self, List.count_cons_of_ne (by decide)]
      congr 1
      omega
    | flat =>
      rw [step (-1) rfl, ih, List.count_cons_self, List.count_cons_of_ne (by decide)]
      congr 1
      omega

/-- The pitch of a tone is the one that is meant, of which 32 bits are kept. -/
theorem pitch_ofInt (octave : Int) (k : Degree) (accidentals : List Accidental) :
    pitch (Int32.ofInt octave) k accidentals =
      Int32.ofInt (k.semitones.toInt + 12 * (octave - 1) +
        accidentals.count .sharp - accidentals.count .flat) := by
  have hbase : k.semitones + 12 * (Int32.ofInt octave - 1) =
      Int32.ofInt (k.semitones.toInt + 12 * (octave - 1)) := by
    rw [Int32.ofInt_add, Int32.ofInt_toInt, Int32.ofInt_mul, Int32.ofInt_sub]
    rfl
  rw [pitch, hbase, foldl_accidentals]

theorem meaning_eq (length : NoteLength) (octave : Int) (command : Command) :
    (command.note? ⟨length, Int32.ofInt octave⟩).toList =
        (meaning length octave command).1.map Meant.note ∧
      command.next ⟨length, Int32.ofInt octave⟩ =
        ⟨(meaning length octave command).2.1,
          Int32.ofInt (meaning length octave command).2.2⟩ := by
  cases command with
  | tone k accidentals t =>
    rw [Command.note?, pitch_ofInt]
    exact ⟨rfl, rfl⟩
  | rest | setLength => exact ⟨rfl, rfl⟩
  | octaveUp => exact ⟨rfl, congrArg (State.mk length) (Int32.ofInt_add octave 1).symm⟩
  | octaveDown => exact ⟨rfl, congrArg (State.mk length) (Int32.ofInt_sub octave 1).symm⟩

/-- Commands are performed as they are meant, and 32 bits are kept of pitches and octaves. -/
theorem perform_ofInt (length : NoteLength) (octave : Int) (commands : List Command) :
    perform ⟨length, Int32.ofInt octave⟩ commands =
      ((interpret length octave commands).1.map Meant.note,
        ⟨(interpret length octave commands).2.1,
          Int32.ofInt (interpret length octave commands).2.2⟩) := by
  induction commands generalizing length octave with
  | nil => rfl
  | cons command commands ih =>
    obtain ⟨hnotes, hnext⟩ := meaning_eq length octave command
    have hmore := ih (meaning length octave command).2.1 (meaning length octave command).2.2
    rw [perform, Prod.mk.injEq] at hmore
    rw [perform, notes, hnotes, final, List.foldl_cons, hnext, hmore.1, interpret, List.map_append]
    exact congrArg _ hmore.2

theorem perform_eq_interpret (s : State) (commands : List Command) :
    perform s commands =
      ((interpret s.length s.octave.toInt commands).1.map Meant.note,
        ⟨(interpret s.length s.octave.toInt commands).2.1,
          Int32.ofInt (interpret s.length s.octave.toInt commands).2.2⟩) := by
  have h := perform_ofInt s.length s.octave.toInt commands
  rwa [Int32.ofInt_toInt] at h

end MusicMacro.Melody
